import InlinePlan.Plan.Queue
import Mathlib.Data.List.Induction
import Mathlib.Order.Lattice

set_option autoImplicit false

/-! # What a queue hands out

A queue only moves its entries about, whatever `before` is (`perm_push`, `perm_of_pop?`). If it puts
the entries in the order of a rank, they stay a heap (`IsHeap`), and the one that is taken out has the
least rank (`IsHeap.pop?`). -/

namespace InlinePlan

namespace Queue

variable {α : Type} {before : α → α → Bool} {q rest : List α} {a b : α} {i j k : Nat}

/-! ## Entries -/

theorem perm_set_set (ha : q[i]? = some a) (hb : q[j]? = some b) :
    ((q.set i b).set j a).Perm q := by
  obtain ⟨hi, rfl⟩ := List.getElem?_eq_some_iff.1 ha
  obtain ⟨hj, rfl⟩ := List.getElem?_eq_some_iff.1 hb
  exact List.set_set_perm hi hj

theorem perm_up (fuel j : Nat) (q : List α) : (up before fuel j q).Perm q := by
  induction fuel generalizing j q with
  | zero => exact List.Perm.refl _
  | succ fuel ih =>
    rw [up]
    split
    · rename_i a b ha hb
      split
      · exact (ih _ _).trans (perm_set_set ha hb)
      · exact List.Perm.refl _
    · exact List.Perm.refl _

theorem perm_down (fuel i : Nat) (q : List α) : (down before fuel i q).Perm q := by
  induction fuel generalizing i q with
  | zero => exact List.Perm.refl _
  | succ fuel ih =>
    rw [down]
    split
    · rename_i a b ha hb
      split
      · exact (ih _ _).trans (perm_set_set ha hb)
      · exact List.Perm.refl _
    · exact List.Perm.refl _

theorem perm_push (q : List α) (a : α) : (push before q a).Perm (a :: q) :=
  (perm_up _ _ _).trans (List.perm_append_singleton a q)

theorem perm_foldl_push (as q : List α) : (as.foldl (push before) q).Perm (q ++ as) := by
  induction as generalizing q with
  | nil => simp
  | cons a as ih =>
    refine (ih _).trans (((perm_push q a).append_right as).trans ?_)
    exact List.perm_middle.symm

theorem perm_replaced (a : α) (q : List α) : ((q.getLast?.getD a :: q).dropLast).Perm q := by
  cases q using List.reverseRecOn with
  | nil => simp
  | append_singleton q b =>
    rw [List.getLast?_concat, Option.getD_some, ← List.cons_append, List.dropLast_concat]
    exact (List.perm_append_singleton b q).symm

theorem pop?_eq_none_iff : pop? before q = none ↔ q = [] := by
  cases q <;> simp [pop?]

theorem perm_of_pop? (h : pop? before q = some (a, rest)) : q.Perm (a :: rest) := by
  cases q with
  | nil => cases h
  | cons b q =>
    simp only [pop?, Option.some.injEq, Prod.mk.injEq] at h
    obtain ⟨rfl, rfl⟩ := h
    exact (((perm_down _ _ _).trans (perm_replaced b q)).cons b).symm

/-! ## Order -/

section Order

variable {ι : Type} [LinearOrder ι] {rank : α → ι}

/-- Entries come before each other as their ranks say. -/
def Ranks (before : α → α → Bool) (rank : α → ι) (q : List α) : Prop :=
  ∀ a ∈ q, ∀ b ∈ q, before a b = true ↔ rank a < rank b

theorem Ranks.subset {q' : List α} (h : Ranks before rank q) (hsub : q' ⊆ q) :
    Ranks before rank q' :=
  fun a ha b hb => h a (hsub ha) b (hsub hb)

/-- The entry at `i` is not larger than the one at `k`, if both are there. -/
def Ahead (rank : α → ι) (q : List α) (i k : Nat) : Prop :=
  ∀ a b, q[i]? = some a → q[k]? = some b → rank a ≤ rank b

/-- No entry is smaller than the one above it. -/
def IsHeap (rank : α → ι) (q : List α) : Prop := ∀ k, Ahead rank q ((k - 1) / 2) k

/-- A heap but for the entry at `j`, which may have to move up. -/
structure UpReady (rank : α → ι) (q : List α) (j : Nat) : Prop where
  off : ∀ k, k ≠ j → Ahead rank q ((k - 1) / 2) k
  across : ∀ k, (k - 1) / 2 = j → Ahead rank q ((j - 1) / 2) k

/-- A heap but for the entry at `i`, which may have to move down. -/
structure DownReady (rank : α → ι) (q : List α) (i : Nat) : Prop where
  off : ∀ k, (k - 1) / 2 ≠ i → Ahead rank q ((k - 1) / 2) k
  across : i ≠ 0 → ∀ k, (k - 1) / 2 = i → Ahead rank q ((i - 1) / 2) k

theorem Ahead.refl (i : Nat) : Ahead rank q i i := by
  intro a b ha hb
  rw [ha] at hb
  exact le_of_eq (congrArg rank (Option.some.inj hb))

/-- The entries after two of them changed places. -/
theorem getElem?_swap (ha : q[i]? = some a) (hb : q[j]? = some b) (k : Nat) :
    ((q.set i b).set j a)[k]? = if k = j then some a else if k = i then some b else q[k]? := by
  obtain ⟨hi, -⟩ := List.getElem?_eq_some_iff.1 ha
  obtain ⟨hj, -⟩ := List.getElem?_eq_some_iff.1 hb
  by_cases hkj : k = j
  · rw [if_pos hkj, hkj, List.getElem?_set_self (by rwa [List.length_set])]
  · rw [if_neg hkj, List.getElem?_set_ne (Ne.symm hkj)]
    by_cases hki : k = i
    · rw [if_pos hki, hki, List.getElem?_set_self hi]
    · rw [if_neg hki, List.getElem?_set_ne (Ne.symm hki)]

theorem UpReady.isHeap (h : UpReady rank q j) (hj : Ahead rank q ((j - 1) / 2) j) :
    IsHeap rank q := by
  intro k
  by_cases hk : k = j
  · exact hk ▸ hj
  · exact h.off k hk

/-- The entry that moves up is smaller than the one that it passes, and so than what is below that. -/
theorem UpReady.swap (h : UpReady rank q j) (hj : (j - 1) / 2 ≠ j)
    (ha : q[(j - 1) / 2]? = some a) (hb : q[j]? = some b) (hlt : rank b < rank a) :
    UpReady rank ((q.set ((j - 1) / 2) b).set j a) ((j - 1) / 2) := by
  have hget := getElem?_swap ha hb
  constructor
  case off =>
    intro k hk x y hx hy
    rw [hget] at hx hy
    rw [if_neg hk] at hy
    by_cases hkj : k = j
    · rw [if_pos hkj] at hy
      rw [hkj, if_neg hj, if_pos rfl] at hx
      cases hx
      cases hy
      exact le_of_lt hlt
    · rw [if_neg hkj] at hy
      by_cases hparent : (k - 1) / 2 = j
      · rw [if_pos hparent] at hx
        cases hx
        exact h.across k hparent a y ha hy
      · rw [if_neg hparent] at hx
        by_cases hsibling : (k - 1) / 2 = (j - 1) / 2
        · rw [if_pos hsibling] at hx
          cases hx
          exact le_trans (le_of_lt hlt) (h.off k hkj a y (hsibling ▸ ha) hy)
        · rw [if_neg hsibling] at hx
          exact h.off k hkj x y hx hy
  case across =>
    intro k hk x y hx hy
    rw [hget] at hx hy
    by_cases hroot : ((j - 1) / 2 - 1) / 2 = (j - 1) / 2
    · -- above the root there is nothing but the root itself
      rw [if_neg (by omega), if_pos hroot] at hx
      cases hx
      by_cases hkj : k = j
      · rw [if_pos hkj] at hy
        cases hy
        exact le_of_lt hlt
      · rw [if_neg hkj] at hy
        by_cases hki : k = (j - 1) / 2
        · rw [if_pos hki] at hy
          cases hy
          exact le_refl _
        · rw [if_neg hki] at hy
          exact le_trans (le_of_lt hlt) (h.off k hkj a y (hk ▸ ha) hy)
    · rw [if_neg (by omega), if_neg hroot] at hx
      have habove := h.off _ hj x a hx ha
      rw [if_neg (c := k = (j - 1) / 2) (by omega)] at hy
      by_cases hkj : k = j
      · rw [if_pos hkj] at hy
        cases hy
        exact habove
      · rw [if_neg hkj] at hy
        exact le_trans habove (h.off k hkj a y (hk ▸ ha) hy)

theorem isHeap_up {fuel : Nat} (hr : Ranks before rank q) (h : UpReady rank q j) (hj : j ≤ fuel) :
    IsHeap rank (up before fuel j q) := by
  induction fuel generalizing j q with
  | zero =>
    obtain rfl : j = 0 := by omega
    exact h.isHeap (.refl 0)
  | succ fuel ih =>
    rw [up]
    split
    · rename_i a b ha hb
      split
      · rename_i hmove
        rw [Bool.and_eq_true, decide_eq_true_eq,
          hr b (List.mem_of_getElem? hb) a (List.mem_of_getElem? ha)] at hmove
        exact ih (hr.subset (perm_set_set ha hb).subset) (h.swap hmove.1 ha hb hmove.2) (by omega)
      · rename_i hstay
        refine h.isHeap fun x y hx hy => ?_
        obtain rfl := Option.some.inj (ha.symm.trans hx)
        obtain rfl := Option.some.inj (hb.symm.trans hy)
        rw [Bool.and_eq_true, decide_eq_true_eq,
          hr b (List.mem_of_getElem? hb) a (List.mem_of_getElem? ha)] at hstay
        by_cases hroot : (j - 1) / 2 = j
        · rw [hroot] at ha
          exact le_of_eq (congrArg rank (Option.some.inj (ha.symm.trans hb)))
        · exact not_lt.1 fun hlt => hstay ⟨hroot, hlt⟩
    · rename_i hnone
      exact h.isHeap fun x y hx hy => absurd hy (hnone x y hx)

theorem firstBelow_eq (before : α → α → Bool) (i : Nat) (q : List α) :
    firstBelow before i q = 2 * i + 1
      ∨ firstBelow before i q = 2 * i + 2 ∧ 2 * i + 2 < q.length := by
  unfold firstBelow
  split
  · rename_i a b _ hb
    split
    · exact .inr ⟨rfl, (List.getElem?_eq_some_iff.1 hb).1⟩
    · exact .inl rfl
  · exact .inl rfl

/-- Of the entries below a position the first one is not larger than any. -/
theorem ahead_firstBelow (hr : Ranks before rank q) (hk : k = 2 * i + 1 ∨ k = 2 * i + 2) :
    Ahead rank q (firstBelow before i q) k := by
  intro x y hx hy
  unfold firstBelow at hx
  split at hx
  · rename_i a b ha hb
    have hprec := hr b (List.mem_of_getElem? hb) a (List.mem_of_getElem? ha)
    split at hx
    · rename_i hright
      obtain rfl := Option.some.inj (hb.symm.trans hx)
      rcases hk with rfl | rfl
      · obtain rfl := Option.some.inj (ha.symm.trans hy)
        exact le_of_lt (hprec.1 hright)
      · exact Ahead.refl _ b y hb hy
    · rename_i hleft
      obtain rfl := Option.some.inj (ha.symm.trans hx)
      rcases hk with rfl | rfl
      · exact Ahead.refl _ a y ha hy
      · obtain rfl := Option.some.inj (hb.symm.trans hy)
        exact not_lt.1 (mt hprec.2 hleft)
  · rename_i hnone
    rcases hk with rfl | rfl
    · exact Ahead.refl _ x y hx hy
    · exact absurd hy (hnone x y hx)

theorem DownReady.isHeap (h : DownReady rank q i)
    (hi : ∀ k, k = 2 * i + 1 ∨ k = 2 * i + 2 → Ahead rank q i k) : IsHeap rank q := by
  intro k
  by_cases hk : (k - 1) / 2 = i
  · by_cases hzero : k = 0
    · rw [hzero]
      exact .refl 0
    · rw [hk]
      exact hi k (by omega)
  · exact h.off k hk

/-- The entry that moves up is the first below the one that it passes, and not smaller than the one
    above that. -/
theorem DownReady.swap (h : DownReady rank q i) (hj : j = 2 * i + 1 ∨ j = 2 * i + 2)
    (hfirst : ∀ k, k = 2 * i + 1 ∨ k = 2 * i + 2 → Ahead rank q j k)
    (ha : q[i]? = some a) (hb : q[j]? = some b) (hlt : rank b < rank a) :
    DownReady rank ((q.set i b).set j a) j := by
  have hget := getElem?_swap ha hb
  constructor
  case off =>
    intro k hk x y hx hy
    rw [hget] at hx hy
    rw [if_neg hk] at hx
    by_cases hki : k = i
    · rw [if_neg (by omega), if_pos hki] at hy
      cases hy
      by_cases hroot : (k - 1) / 2 = i
      · rw [if_pos hroot] at hx
        cases hx
        exact le_refl _
      · rw [if_neg hroot, hki] at hx
        exact h.across (by omega) j (by omega) x b hx hb
    · by_cases hparent : (k - 1) / 2 = i
      · rw [if_pos hparent] at hx
        cases hx
        by_cases hkj : k = j
        · rw [if_pos hkj] at hy
          cases hy
          exact le_of_lt hlt
        · rw [if_neg hkj, if_neg hki] at hy
          exact hfirst k (by omega) b y hb hy
      · rw [if_neg hparent] at hx
        rw [if_neg (by omega), if_neg hki] at hy
        exact h.off k hparent x y hx hy
  case across =>
    intro hne k hk x y hx hy
    rw [hget] at hx hy
    rw [if_neg (by omega), if_pos (by omega)] at hx
    rw [if_neg (by omega), if_neg (by omega)] at hy
    cases hx
    exact h.off k (by omega) b y (hk ▸ hb) hy

theorem isHeap_down {fuel : Nat} (hr : Ranks before rank q) (h : DownReady rank q i)
    (hi : q.length ≤ i + fuel) : IsHeap rank (down before fuel i q) := by
  induction fuel generalizing i q with
  | zero =>
    refine h.isHeap fun k hk x y hx hy => ?_
    have := (List.getElem?_eq_some_iff.1 hx).1
    omega
  | succ fuel ih =>
    have hj := firstBelow_eq before i q
    have hfirst := fun k hk => ahead_firstBelow (k := k) (i := i) hr hk
    rw [down]
    generalize firstBelow before i q = j at hj hfirst
    have hj' : j = 2 * i + 1 ∨ j = 2 * i + 2 := hj.imp_right And.left
    split
    · rename_i a b ha hb
      have hprec := hr b (List.mem_of_getElem? hb) a (List.mem_of_getElem? ha)
      split
      · rename_i hmove
        refine ih (hr.subset (perm_set_set ha hb).subset) (h.swap hj' hfirst ha hb (hprec.1 hmove)) ?_
        simp only [List.length_set]
        omega
      · rename_i hstay
        refine h.isHeap fun k hk x y hx hy => ?_
        obtain rfl := Option.some.inj (ha.symm.trans hx)
        exact le_trans (not_lt.1 fun hlt => hstay (hprec.2 hlt)) (hfirst k hk b y hb hy)
    · rename_i hnone
      refine h.isHeap fun k hk x y hx hy => ?_
      have hkq := (List.getElem?_eq_some_iff.1 hy).1
      have hjq : j < q.length := by omega
      exact absurd (List.getElem?_eq_getElem hjq) (hnone x _ hx)

/-! ## Heaps -/

theorem isHeap_nil : IsHeap rank ([] : List α) := by
  intro k a b ha
  simp at ha

theorem IsHeap.push (h : IsHeap rank q) (hr : Ranks before rank (a :: q)) :
    IsHeap rank (push before q a) := by
  refine isHeap_up (hr.subset (List.perm_append_singleton a q).subset) ?_ (Nat.le_refl _)
  have hlt {k : Nat} {y : α} (hy : (q ++ [a])[k]? = some y) : k < q.length + 1 := by
    obtain ⟨hk, -⟩ := List.getElem?_eq_some_iff.1 hy
    rwa [List.length_append] at hk
  constructor
  case off =>
    intro k hk x y hx hy
    have hkq := hlt hy
    rw [List.getElem?_append_left (by omega)] at hx hy
    exact h k x y hx hy
  case across =>
    intro k hk x y hx hy
    -- nothing is below the last entry, unless it is the only one
    have hkq := hlt hy
    obtain rfl : k = 0 := by omega
    rw [← hk] at hx
    exact Ahead.refl 0 x y hx hy

theorem IsHeap.foldl_push {as : List α} (h : IsHeap rank q) (hr : Ranks before rank (q ++ as)) :
    IsHeap rank (as.foldl (Queue.push before) q) := by
  induction as generalizing q with
  | nil => exact h
  | cons a as ih =>
    have hr' : Ranks before rank ((a :: q) ++ as) := hr.subset List.perm_middle.symm.subset
    have hpush := h.push (hr'.subset (List.subset_append_left (a :: q) as))
    exact ih hpush (hr'.subset ((perm_push q a).append_right as).subset)

/-- The entry at the top of a heap is not larger than any other. -/
theorem IsHeap.top_le (h : IsHeap rank (a :: q)) : ∀ b ∈ q, rank a ≤ rank b := by
  have hall : ∀ (k : Nat) (b : α), (a :: q)[k]? = some b → rank a ≤ rank b := by
    intro k
    induction k using Nat.strongRecOn with
    | ind k ih =>
      intro b hb
      by_cases hk : k = 0
      · subst hk
        exact le_of_eq (congrArg rank (Option.some.inj hb))
      · have hlt := (List.getElem?_eq_some_iff.1 hb).1
        have habove := List.getElem?_eq_getElem (l := a :: q) (i := (k - 1) / 2) (by omega)
        exact le_trans (ih _ (by omega) _ habove) (h k _ b habove hb)
  intro b hb
  obtain ⟨k, hk⟩ := List.mem_iff_getElem?.1 hb
  exact hall (k + 1) b hk

/-- What a heap hands out is not larger than the rest, and the rest is a heap again. -/
theorem IsHeap.pop? (h : IsHeap rank q) (hr : Ranks before rank q)
    (hpop : Queue.pop? before q = some (a, rest)) :
    (∀ b ∈ rest, rank a ≤ rank b) ∧ IsHeap rank rest := by
  have hperm := perm_of_pop? hpop
  cases q with
  | nil => cases hpop
  | cons b q =>
    simp only [Queue.pop?, Option.some.injEq, Prod.mk.injEq] at hpop
    obtain ⟨rfl, rfl⟩ := hpop
    have hq := (List.perm_cons b).1 hperm
    refine ⟨fun c hc => h.top_le c (hq.mem_iff.2 hc), ?_⟩
    have hreplaced := perm_replaced b q
    have hbelow {m : Nat} {x : α} (hm : m ≠ 0)
        (hx : ((q.getLast?.getD b :: q).dropLast)[m]? = some x) : (b :: q)[m]? = some x := by
      rw [List.getElem?_dropLast, Option.ite_none_right_eq_some] at hx
      cases m with
      | zero => exact absurd rfl hm
      | succ m => exact hx.2
    refine isHeap_down (hr.subset (List.subset_cons_of_subset b hreplaced.subset))
      ⟨fun k hk x y hx hy => ?_, fun hne => absurd rfl hne⟩ (by rw [hreplaced.length_eq]; omega)
    exact h k x y (hbelow hk hx) (hbelow (by omega) hy)

end Order

end Queue

end InlinePlan

import InlinePlan.Analysis.Run
import InlinePlan.Proofs.Analysis.Operands

set_option autoImplicit false

/-! # Merging and widening, slot by slot

A merged frame has the join of the two slots in each place, or an unusable local where the join
fails or a pair is broken. A widened frame has each slot without its fact. -/

namespace InlinePlan

/-! ## Slots -/

/-- Padding joins with padding, and values join with values of their kind. -/
theorem Value.join_eq_ok {v w u : Value} :
    v.join w = .ok u ↔ (v = .pad ∧ w = .pad ∧ u = .pad)
      ∨ ∃ k f p f' p', v = .slot k f p ∧ w = .slot k f' p'
        ∧ u = .slot k (Fact.join? f f') (if p = p' then p else none) := by
  constructor
  · intro h
    cases v with
    | pad =>
      cases w with
      | pad =>
        cases h
        exact .inl ⟨rfl, rfl, rfl⟩
      | slot => simp only [join] at h; split at h <;> cases h
    | slot k f p =>
      cases w with
      | pad => simp only [join] at h; split at h <;> cases h
      | slot k' f' p' =>
        simp only [join] at h
        split at h
        case isTrue => cases h
        case isFalse hk =>
          cases h
          exact .inr ⟨k, f, p, f', p', rfl, by rw [Decidable.not_not.1 hk], rfl⟩
  · rintro (⟨rfl, rfl, rfl⟩ | ⟨k, f, p, f', p', rfl, rfl, rfl⟩)
    · rfl
    · simp [join]

theorem Value.isPad_join {v w u : Value} (h : v.join w = .ok u) : u.isPad = v.isPad := by
  obtain ⟨rfl, -, rfl⟩ | ⟨k, f, p, f', p', rfl, -, rfl⟩ := join_eq_ok.1 h <;> rfl

theorem Value.kind_join {v w u : Value} (h : v.join w = .ok u) : u.kind = v.kind := by
  obtain ⟨rfl, -, rfl⟩ | ⟨k, f, p, f', p', rfl, -, rfl⟩ := join_eq_ok.1 h <;> rfl

namespace Frame

/-! ## Locals -/

theorem getD_mergeLocals (as bs : List Value) (n : Nat) :
    (mergeLocals as bs).getD n .unusable
      = mergeLocal (as.getD n .unusable) (bs.getD n .unusable) := by
  fun_induction mergeLocals as bs generalizing n with
  | case1 => rfl
  | case2 a as ih =>
    cases n with
    | zero => rfl
    | succ n => simpa using ih n
  | case3 b bs ih =>
    cases n with
    | zero => rfl
    | succ n => simpa using ih n
  | case4 a as b bs ih =>
    cases n with
    | zero => rfl
    | succ n => simpa using ih n

theorem getD_dropLoneValues (locals : List Value) (n : Nat) :
    (dropLoneValues locals).getD n .unusable = locals.getD n .unusable
      ∨ (dropLoneValues locals).getD n .unusable = .unusable := by
  fun_induction dropLoneValues locals generalizing n with
  | case1 => exact .inl rfl
  | case2 v =>
    cases n with
    | zero => by_cases hv : v.isWide = true <;> simp [hv]
    | succ n => exact .inl rfl
  | case3 v w vs ih =>
    cases n with
    | zero =>
      simp only [List.getD_cons_zero]
      split
      · exact .inr rfl
      · exact .inl rfl
    | succ n => simpa using ih n

theorem getD_dropLonePads (afterWide : Bool) (locals : List Value) (n : Nat) :
    (dropLonePads afterWide locals).getD n .unusable = locals.getD n .unusable
      ∨ (dropLonePads afterWide locals).getD n .unusable = .unusable := by
  induction locals generalizing afterWide n with
  | nil => exact .inl rfl
  | cons v vs ih =>
    cases n with
    | zero =>
      simp only [dropLonePads, List.getD_cons_zero]
      split
      · exact .inr rfl
      · exact .inl rfl
    | succ n => simpa [dropLonePads] using ih v.isWide n

/-- Dropping broken pairs only loses values. -/
theorem getD_dropBrokenPairs (locals : List Value) (n : Nat) :
    (dropBrokenPairs locals).getD n .unusable = locals.getD n .unusable
      ∨ (dropBrokenPairs locals).getD n .unusable = .unusable := by
  rcases getD_dropLonePads false (dropLoneValues locals) n with h | h
  · rcases getD_dropLoneValues locals n with h' | h'
    · exact .inl (h.trans h')
    · exact .inr (h.trans h')
  · exact .inr h

/-! ## Operands -/

theorem mergeOperands_ok {as bs cs : List Value} (h : mergeOperands as bs = .ok cs)
    (hlen : as.length = bs.length) :
    cs.length = as.length ∧ ∀ (i : Nat) (u : Value), cs[i]? = some u →
      ∃ v w : Value, as[i]? = some v ∧ bs[i]? = some w ∧ v.join w = .ok u := by
  induction as generalizing bs cs with
  | nil =>
    cases h
    simp
  | cons a as ih =>
    cases bs with
    | nil => simp at hlen
    | cons b bs =>
      rw [mergeOperands] at h
      cases hj : a.join b with
      | error e => simp [hj] at h
      | ok c =>
        cases hr : mergeOperands as bs with
        | error e => simp [hj, hr] at h
        | ok rest =>
          simp only [hj, hr, Except.ok.injEq] at h
          subst h
          obtain ⟨hlen', hrest⟩ := ih hr (by simpa using hlen)
          refine ⟨by simp [hlen'], fun i u hu => ?_⟩
          cases i with
          | zero => exact ⟨a, b, rfl, rfl, by simpa using hj.trans (by simpa using hu)⟩
          | succ i => exact hrest i u hu

/-! ## Frames -/

/-- What a merge of `f` and `o` yields. -/
structure Merged (f o f' : Frame) : Prop where
  depth : f.stack.length = o.stack.length
  depth' : f'.stack.length = f.stack.length
  locals : ∀ n : Nat, f'.localAt n = mergeLocal (f.localAt n) (o.localAt n)
    ∨ f'.localAt n = .unusable
  stack : ∀ (i : Nat) (u : Value), f'.stack[i]? = some u →
    ∃ v w : Value, f.stack[i]? = some v ∧ o.stack[i]? = some w ∧ v.join w = .ok u

theorem merge_eq_ok {f o f' : Frame} :
    f.merge o = .ok f' ↔ f.stack.length = o.stack.length
      ∧ f'.locals = dropBrokenPairs (mergeLocals f.locals o.locals)
      ∧ mergeOperands f.stack.reverse o.stack.reverse = .ok f'.stack.reverse := by
  unfold merge mergeOrLeave
  split
  case isTrue hd => exact ⟨nofun, fun h => absurd h.1 hd⟩
  case isFalse hd =>
    have hd : f.stack.length = o.stack.length := Decidable.not_not.1 hd
    cases hs : mergeOperands f.stack.reverse o.stack.reverse with
    | error e => exact ⟨nofun, fun h => nomatch h.2.2⟩
    | ok stack =>
      constructor
      · rintro ⟨⟩
        exact ⟨hd, rfl, by rw [List.reverse_reverse]⟩
      · rintro ⟨-, hlocals, hstack⟩
        cases hstack
        show Except.ok (Frame.mk _ f'.stack.reverse.reverse) = .ok f'
        rw [List.reverse_reverse, ← hlocals]

theorem merge_ok {f o f' : Frame} (h : f.merge o = .ok f') : Merged f o f' := by
  obtain ⟨hd, hlocals, hs⟩ := merge_eq_ok.1 h
  obtain ⟨hlen, hstack⟩ := mergeOperands_ok hs (by simpa using hd)
  rw [List.length_reverse, List.length_reverse] at hlen
  refine ⟨hd, hlen, fun n => ?_, fun i u hu => ?_⟩
  · rw [localAt_natCast, localAt_natCast, localAt_natCast, ← getD_mergeLocals, hlocals]
    exact getD_dropBrokenPairs _ n
  · -- the stacks are merged from the bottom
    have hi : i < f'.stack.length := (List.getElem?_eq_some_iff.1 hu).1
    obtain ⟨v, w, hv, hw, hj⟩ := hstack (f'.stack.length - 1 - i) u (by
      rw [List.getElem?_reverse (by omega), ← hu]
      congr 1
      omega)
    rw [List.getElem?_reverse (by omega)] at hv hw
    exact ⟨v, w, by rw [← hv]; congr 1; omega, by rw [← hw]; congr 1; omega, hj⟩

/-- What a join takes over from its first slot, a merge takes over from the first stack. -/
theorem Merged.map_stack {γ : Type} {f o f' : Frame} (h : Merged f o f') {part : Value → γ}
    (hpart : ∀ v w u : Value, v.join w = .ok u → part u = part v) :
    f'.stack.map part = f.stack.map part := by
  refine List.ext_getElem? fun i => ?_
  rw [List.getElem?_map, List.getElem?_map]
  cases hu : f'.stack[i]? with
  | none =>
    have hi : f'.stack.length ≤ i := List.getElem?_eq_none_iff.1 hu
    rw [List.getElem?_eq_none (h.depth' ▸ hi)]
  | some u =>
    obtain ⟨v, w, hv, -, hj⟩ := h.stack i u hu
    rw [hv, Option.map_some, Option.map_some, hpart v w u hj]

/-- What a merge takes over from either frame holds of the merge of several. -/
theorem of_mergeAll {P : Frame → Prop}
    (hP : ∀ f o f' : Frame, P f ∨ P o → f.merge o = .ok f' → P f') {f f' x : Frame}
    {fs : List Frame} (hx : x ∈ f :: fs) (h : P x) (hm : mergeAll f fs = .ok f') : P f' := by
  induction fs generalizing f x with
  | nil =>
    cases hm
    rwa [List.mem_singleton.1 hx] at h
  | cons o fs ih =>
    rw [mergeAll] at hm
    cases hfo : f.merge o with
    | error e => simp [hfo] at hm
    | ok f₁ =>
      simp only [hfo] at hm
      rcases List.mem_cons.1 hx with rfl | hx
      · exact ih List.mem_cons_self (hP x o f₁ (.inl h) hfo) hm
      · rcases List.mem_cons.1 hx with rfl | hx
        · exact ih List.mem_cons_self (hP f x f₁ (.inr h) hfo) hm
        · exact ih (List.mem_cons_of_mem _ hx) h hm

/-! ## Widening -/

theorem localAt_widen (f : Frame) (written : List Bool) (n : Nat) :
    (f.widen written).localAt n = forget (!(written.getD n false)) (f.localAt n) := by
  simp only [localAt_natCast, widen, List.getD, List.getElem?_mapIdx]
  cases f.locals[n]? with
  | none => simp [forget, Value.unusable]
  | some v => rfl

theorem stack_widen (f : Frame) (written : List Bool) :
    (f.widen written).stack = f.stack.map (forget false) := rfl

end Frame

end InlinePlan

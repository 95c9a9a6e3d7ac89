import InlinePlan.Proofs.Analysis.Merge
import InlinePlan.Proofs.Execution.Machine
import Mathlib.Data.List.Forall2

set_option autoImplicit false

/-! # What facts, values and frames mean

A fact holds of the slots it allows, a value describes the slots of its kind of which its fact holds,
and a frame describes an activation slot by slot. Joining, merging and widening keep what is
described. -/

namespace InlinePlan

variable {C : ClassRelation}

/-! ## Facts -/

/-- The slots that a fact allows. -/
def Fact.Holds (C : ClassRelation) (f : Fact) (d : Datum) : Prop :=
  match f.kind with
  | .range => ∃ v ∈ d.int?, f.lo ≤ v ∧ v ≤ f.hi
  | .null => d = .null
  | .object => (d = .null ∧ f.nonNull = false)
      ∨ ∃ c ∈ d.cls?, C.sub c f.cls ∧ (f.exact = true → c = f.cls)
  | .array => ∃ n : Fin 2147483648, d = .array f.cls n ∧ f.lo ≤ (n : Nat) ∧ (n : Nat) ≤ f.hi
  | .string => d = .string f.str ∧ f.cls = stringClass
  | .unknown _ => False

namespace Fact

variable {f g h : Fact} {d : Datum}

theorem holds_range {lo hi : Int} {v : Int} (hd : d.int? = some v) (hlo : lo ≤ v) (hhi : v ≤ hi) :
    (range lo hi).Holds C d := by
  refine ⟨v, hd, ?_, ?_⟩
  · show min lo hi ≤ v
    omega
  · show v ≤ max lo hi
    omega

theorem holds_const {v : Int} (hd : d.int? = some v) : (const v).Holds C d :=
  ⟨v, hd, Int.le_refl v, Int.le_refl v⟩

/-- A fact that leaves one integer holds of this integer only. -/
theorem int?_of_const? {v : Int} (hf : f.Holds C d) (hv : f.const? = some v) : d.int? = some v := by
  unfold const? at hv
  split at hv
  case isTrue hc =>
    cases hv
    rw [Holds, hc.1] at hf
    obtain ⟨w, hw, hlo, hhi⟩ := hf
    have : w = f.lo := by omega
    exact this ▸ hw
  case isFalse => cases hv

theorem holds_array {desc : String} {lo hi : Int} {n : Fin 2147483648}
    (hlo : lo ≤ (n : Nat)) (hhi : (n : Nat) ≤ hi) : (array desc lo hi).Holds C (.array desc n) := by
  have hn : (n : Nat) < 2147483648 := n.isLt
  refine ⟨n, rfl, ?_, ?_⟩
  · show min (max lo 0) maxInt32 ≤ ((n : Nat) : Int)
    unfold maxInt32
    omega
  · show ((n : Nat) : Int) ≤ min (max hi (min (max lo 0) maxInt32)) maxInt32
    unfold maxInt32
    omega

theorem holds_exactObject {cls : String} (hd : d.cls? = some cls) :
    (exactObject cls).Holds C d :=
  .inr ⟨cls, hd, C.refl cls, fun _ => rfl⟩

theorem holds_asObject (hf : f.Holds C d) : f.asObject.Holds C d := by
  unfold asObject
  split
  case isTrue hk =>
    rw [Holds, hk] at hf
    exact holds_exactObject (by rw [hf.1]; rfl)
  case isFalse => exact hf

theorem holds_joinPlain (hfg : f.Holds C d ∨ g.Holds C d) (hj : f.joinPlain g = some h) :
    h.Holds C d := by
  unfold joinPlain at hj
  split at hj
  case isTrue => cases hj
  case isFalse hk =>
    have hk : g.kind = f.kind := (Decidable.not_not.1 hk).symm
    unfold Holds at hfg
    rw [hk] at hfg
    cases hkind : f.kind with
    | range =>
      rw [hkind] at hj hfg
      cases hj
      rcases hfg with ⟨v, hv, hlo, hhi⟩ | ⟨v, hv, hlo, hhi⟩
      · exact holds_range hv (by omega) (by omega)
      · exact holds_range hv (by omega) (by omega)
    | null =>
      rw [hkind] at hj hfg
      cases hj
      rw [Holds, hkind]
      exact hfg.elim id id
    | object =>
      rw [hkind] at hj hfg
      simp only at hj hfg
      split at hj
      case isTrue => cases hj
      case isFalse hne =>
        simp only [ne_eq, not_or, Decidable.not_not] at hne
        rw [← hne.1, ← hne.2] at hfg
        split at hj
        case isTrue he =>
          cases hj
          rw [← he] at hfg
          rw [Holds, hkind]
          exact hfg.elim id id
        case isFalse =>
          cases hj
          -- only one of the two is exact, and the join is not
          show (d = .null ∧ f.nonNull = false) ∨ ∃ c ∈ d.cls?, C.sub c f.cls ∧ _
          rcases hfg with (hnull | ⟨c, hc, hsub, -⟩) | (hnull | ⟨c, hc, hsub, -⟩)
          · exact .inl hnull
          · exact .inr ⟨c, hc, hsub, nofun⟩
          · exact .inl hnull
          · exact .inr ⟨c, hc, hsub, nofun⟩
    | array =>
      rw [hkind] at hj hfg
      simp only at hj hfg
      split at hj
      case isTrue => cases hj
      case isFalse hne =>
        cases hj
        rw [← Decidable.not_not.1 hne] at hfg
        rcases hfg with ⟨n, rfl, hlo, hhi⟩ | ⟨n, rfl, hlo, hhi⟩
        · exact holds_array (by omega) (by omega)
        · exact holds_array (by omega) (by omega)
    | string | unknown =>
      rw [hkind] at hj
      cases hj

/-- A fact that excludes null bounds the class. -/
theorem cls_of_isNonNull (hf : f.Holds C d) (hn : f.isNonNull = true) :
    ∃ c ∈ d.cls?, C.sub c f.cls ∧ (f.exact = true → c = f.cls) := by
  simp only [isNonNull, Bool.and_eq_true, decide_eq_true_eq] at hn
  obtain ⟨⟨hnull, hrange⟩, hnon⟩ := hn
  unfold Holds at hf
  cases hk : f.kind with
  | range => exact absurd hk hrange
  | null => exact absurd hk hnull
  | object =>
    rw [hk] at hf
    rcases hf with ⟨-, hfalse⟩ | h
    · rw [hnon] at hfalse
      cases hfalse
    · exact h
  | array =>
    rw [hk] at hf
    obtain ⟨n, rfl, -⟩ := hf
    exact ⟨f.cls, rfl, C.refl _, fun _ => rfl⟩
  | string =>
    rw [hk] at hf
    obtain ⟨rfl, hcls⟩ := hf
    exact ⟨f.cls, congrArg some hcls.symm, C.refl _, fun _ => rfl⟩
  | unknown code =>
    rw [hk] at hf
    exact hf.elim

/-- A join allows what either fact allows. -/
theorem holds_join (hfg : f.Holds C d ∨ g.Holds C d) (hj : f.join g = some h) : h.Holds C d := by
  unfold join at hj
  split at hj
  case isTrue he =>
    cases hj
    exact hfg.elim id (he ▸ id)
  case isFalse =>
    split at hj
    case isTrue hs =>
      cases hj
      have hstring {f : Fact} (hk : f.kind = .string) (hf : f.Holds C d) :
          (exactObject stringClass).Holds C d := by
        have := holds_asObject hf
        rwa [asObject, if_pos hk] at this
      exact hfg.elim (hstring hs.1) (hstring hs.2)
    case isFalse => exact holds_joinPlain (hfg.imp holds_asObject holds_asObject) hj

end Fact

/-! ## Values -/

/-- The slots that a value describes: those of its kind of which its fact holds. Padding and an
    untyped slot describe any. -/
def Value.Describes (C : ClassRelation) (v : Value) (d : Datum) : Prop :=
  v.kind = .untyped ∨ d.kind = v.kind ∧ ∀ f ∈ v.fact, f.Holds C d

/-- A slot has the kind that a value requires. -/
def Value.Fits (v : Value) (d : Datum) : Prop := v.kind = .untyped ∨ d.kind = v.kind

namespace Value

variable {v w u : Value} {d : Datum} {k : Kind}

theorem describes_pad : Value.pad.Describes C d := .inl rfl

theorem describes_unusable : unusable.Describes C d := .inl rfl

theorem fits_forget {keepMark : Bool} (h : v.Describes C d) : (Frame.forget keepMark v).Fits d := by
  cases v with
  | pad => exact .inl rfl
  | slot k f p => exact h.imp id (·.1)

theorem describes_forget {keepMark : Bool} (h : (Frame.forget keepMark v).Fits d) :
    (Frame.forget keepMark v).Describes C d := by
  cases v with
  | pad => exact describes_pad
  | slot k f p => exact h.imp id fun hk => ⟨hk, nofun⟩

/-- A join describes what either value describes. -/
theorem describes_join (h : v.Describes C d ∨ w.Describes C d) (hj : v.join w = .ok u) :
    u.Describes C d := by
  cases v with
  | pad =>
    cases w with
    | pad =>
      cases hj
      exact describes_pad
    | slot =>
      simp only [join] at hj
      split at hj <;> cases hj
  | slot k f p =>
    cases w with
    | pad =>
      simp only [join] at hj
      split at hj <;> cases hj
    | slot k' g q =>
      simp only [join] at hj
      split at hj
      case isTrue => cases hj
      case isFalse hk =>
        cases hj
        rw [← Decidable.not_not.1 hk] at h
        have hkind : k = .untyped ∨ d.kind = k := h.elim (·.imp id (·.1)) (·.imp id (·.1))
        refine hkind.elim .inl fun hd => ?_
        by_cases hu : k = .untyped
        · exact .inl hu
        refine .inr ⟨hd, fun e he => ?_⟩
        cases f with
        | none => cases he
        | some f =>
          cases g with
          | none => cases he
          | some g =>
            refine Fact.holds_join (h.imp ?_ ?_) he
            · exact fun h => (h.resolve_left hu).2 f rfl
            · exact fun h => (h.resolve_left hu).2 g rfl

theorem describes_mergeLocal (h : v.Describes C d ∨ w.Describes C d) :
    (Frame.mergeLocal v w).Describes C d := by
  unfold Frame.mergeLocal
  cases hj : v.join w with
  | ok u => exact describes_join h hj
  | error e => exact describes_unusable

/-- The slot of a described value is of its kind, unless it is untyped. -/
theorem Describes.kind_eq (h : v.Describes C d) (hk : v.kind = k) (hu : k ≠ .untyped) :
    d.kind = k := by
  rcases h with h | ⟨h, -⟩
  · exact absurd (hk ▸ h) hu
  · exact h.trans hk

theorem Describes.fact (h : v.Describes C d) (hu : v.kind ≠ .untyped) {f : Fact}
    (hf : v.fact = some f) : f.Holds C d :=
  (h.resolve_left hu).2 f hf

theorem Describes.int?_of_const? (h : v.Describes C d) (hu : v.kind ≠ .untyped) {c : Int}
    (hc : v.const? = some c) : d.int? = some c := by
  obtain ⟨f, hf, hc⟩ := Option.bind_eq_some_iff.1 hc
  exact Fact.int?_of_const? (h.fact hu hf) hc

end Value

/-! ## Frames -/

namespace Frame

/-- A frame describes an activation slot by slot. -/
structure Describes (C : ClassRelation) (f : Frame) (a : Activation) : Prop where
  locals : ∀ n : Nat, (f.localAt n).Describes C (a.locals n)
  stack : List.Forall₂ (Value.Describes C) f.stack a.stack

/-- An activation has the depth and the kinds that a frame requires. -/
structure Fits (f : Frame) (a : Activation) : Prop where
  locals : ∀ n : Nat, (f.localAt n).Fits (a.locals n)
  stack : List.Forall₂ Value.Fits f.stack a.stack

variable {f o f' : Frame} {a : Activation}

/-- Widening leaves the kinds only, so it describes whatever fits. -/
theorem describes_widen {written : List Bool} (h : (f.widen written).Fits a) :
    (f.widen written).Describes C a where
  locals := by
    intro n
    have hn := h.locals n
    rw [localAt_widen] at hn ⊢
    exact Value.describes_forget hn
  stack := by
    have hs := h.stack
    rw [stack_widen, List.forall₂_map_left_iff] at hs ⊢
    exact hs.imp fun v d hv => Value.describes_forget hv

theorem fits_widen {written : List Bool} (h : f.Describes C a) : (f.widen written).Fits a where
  locals := by
    intro n
    rw [localAt_widen]
    exact Value.fits_forget (h.locals n)
  stack := by
    rw [stack_widen, List.forall₂_map_left_iff]
    exact h.stack.imp fun v d hv => Value.fits_forget hv

/-- A merge describes what either frame describes. -/
theorem describes_merge (h : f.Describes C a ∨ o.Describes C a) (hm : f.merge o = .ok f') :
    f'.Describes C a := by
  have hmerged := merge_ok hm
  refine ⟨fun n => ?_, ?_⟩
  · rcases hmerged.locals n with hn | hn
    · rw [hn]
      exact Value.describes_mergeLocal (h.imp (·.locals n) (·.locals n))
    · rw [hn]
      exact Value.describes_unusable
  · have hlen : f'.stack.length = a.stack.length := by
      rcases h with h | h
      · rw [hmerged.depth', h.stack.length_eq]
      · rw [hmerged.depth', hmerged.depth, h.stack.length_eq]
    refine List.forall₂_iff_get.2 ⟨hlen, fun i hi hi' => ?_⟩
    obtain ⟨v, w, hv, hw, hj⟩ := hmerged.stack i _ (List.getElem?_eq_getElem hi)
    refine Value.describes_join (h.imp ?_ ?_) hj
    · intro h
      obtain ⟨hlt, rfl⟩ := List.getElem?_eq_some_iff.1 hv
      exact h.stack.get hlt hi'
    · intro h
      obtain ⟨hlt, rfl⟩ := List.getElem?_eq_some_iff.1 hw
      exact h.stack.get hlt hi'

theorem describes_mergeAll {fs : List Frame} {x : Frame} (hx : x ∈ f :: fs) (h : x.Describes C a)
    (hm : mergeAll f fs = .ok f') : f'.Describes C a :=
  of_mergeAll (fun _ _ _ => describes_merge) hx h hm

end Frame

end InlinePlan

import InlinePlan.Proofs.Analysis.Paired
import InlinePlan.Proofs.Analysis.Typed

set_option autoImplicit false

/-! # Joins of facts and slots

Joins are idempotent, commutative and associative, failures included. The join of two facts treats
the parts of a fact apart, and each part has the laws (`FactView`); facts as the constructors make
them are told apart by these parts. So the joins of slots have the laws, and so have the merges of
single locals, where a failed join leaves an unusable slot. -/

namespace InlinePlan

open InlinePlan.Frame

/-! ## Facts -/

/-- The parts of a fact that a join treats apart from each other. Facts with different keys have no
    common fact above them; a string is an object of its class with a text. -/
structure FactView where
  key : FactKind × String × Bool
  lo : Int
  hi : Int
  exact : Bool
  text : Option (List UInt8)

namespace FactView

def join (a b : FactView) : Option FactView :=
  if a.key = b.key then
    some ⟨a.key, min a.lo b.lo, max a.hi b.hi, a.exact && b.exact,
      if a.text = b.text then a.text else none⟩
  else none

theorem join_self (a : FactView) : a.join a = some a := by
  simp [join]

theorem join_comm (a b : FactView) : a.join b = b.join a := by
  unfold join
  by_cases h : a.key = b.key
  · rw [if_pos h, if_pos h.symm, h, Int.min_comm, Int.max_comm, Bool.and_comm]
    by_cases ht : a.text = b.text
    · simp [ht]
    · simp [ht, Ne.symm ht]
  · rw [if_neg h, if_neg (Ne.symm h)]

theorem join_assoc (a b c : FactView) :
    (a.join b).bind (·.join c) = (b.join c).bind (a.join ·) := by
  unfold join
  by_cases hab : a.key = b.key
  · by_cases hbc : b.key = c.key
    · have htext : (if (if a.text = b.text then a.text else none) = c.text
            then (if a.text = b.text then a.text else none) else none)
          = if a.text = (if b.text = c.text then b.text else none) then a.text else none := by
        grind
      simp [hab, hbc, htext, Int.min_assoc, Int.max_assoc, Bool.and_assoc]
    · simp [hab, hbc]
  · rw [if_neg hab, Option.bind_none]
    split <;> simp [hab]

end FactView

namespace Fact

def view (f : Fact) : FactView where
  key := (f.asObject.kind, f.cls, f.nonNull)
  lo := f.lo
  hi := f.hi
  exact := f.exact
  text := if f.kind = .string then some f.str else none

theorem Made.str_eq_nil {k : Kind} {f : Fact} (h : f.Made k) (hs : f.kind ≠ .string) :
    f.str = [] := by
  cases h with
  | string s => exact absurd rfl hs
  | _ => rfl

theorem view_inj {k : Kind} {f g : Fact} (hf : f.Made k) (hg : g.Made k) (h : f.view = g.view) :
    f = g := by
  simp only [view, FactView.mk.injEq, Prod.mk.injEq] at h
  obtain ⟨⟨hkind, hcls, hnull⟩, hlo, hhi, hexact, htext⟩ := h
  have hboth : f.kind = g.kind ∧ f.str = g.str := by
    by_cases hfs : f.kind = .string
    · by_cases hgs : g.kind = .string
      · rw [if_pos hfs, if_pos hgs] at htext
        exact ⟨hfs.trans hgs.symm, Option.some.inj htext⟩
      · simp [hfs, hgs] at htext
    · by_cases hgs : g.kind = .string
      · simp [hfs, hgs] at htext
      · rw [asObject, asObject, if_neg hfs, if_neg hgs] at hkind
        exact ⟨hkind, by rw [hf.str_eq_nil hfs, hg.str_eq_nil hgs]⟩
  obtain ⟨fk, flo, fhi, fcls, fexact, fnull, fstr⟩ := f
  obtain ⟨gk, glo, ghi, gcls, gexact, gnull, gstr⟩ := g
  simp_all

/-- The facts that are no strings, with their fields. -/
inductive Plain : Fact → Prop where
  | range (lo hi : Int) (h : lo ≤ hi) : Plain { kind := .range, lo, hi }
  | null : Plain .null
  | object (cls : String) (exact nonNull : Bool) : Plain { kind := .object, cls, exact, nonNull }
  | array (cls : String) (lo hi : Int) (hlo : 0 ≤ lo) (h : lo ≤ hi) (hhi : hi ≤ maxInt32) :
      Plain { kind := .array, cls, lo, hi, nonNull := true }

theorem Made.plain {k : Kind} {f : Fact} (h : f.Made k) : f.asObject.Plain := by
  cases h with
  | int a b | long a b => exact .range _ _ (by omega)
  | null => exact .null
  | exactObject cls => exact .object cls true true
  | object cls nonNull => exact .object cls false nonNull
  | array desc lo hi =>
    obtain ⟨hlo, hle, hhi⟩ := array_bounds desc lo hi
    exact .array desc _ _ hlo hle hhi
  | string s => exact .object stringClass true true

theorem range_eq {lo hi : Int} (h : lo ≤ hi) : Fact.range lo hi = { kind := .range, lo, hi } := by
  rw [Fact.range, Int.min_eq_left h, Int.max_eq_right h]

theorem array_eq {cls : String} {lo hi : Int} (hlo : 0 ≤ lo) (h : lo ≤ hi) (hhi : hi ≤ maxInt32) :
    Fact.array cls lo hi = { kind := .array, cls, lo, hi, nonNull := true } := by
  have hleast : min (max lo 0) maxInt32 = lo := by omega
  have hmost : min (max hi lo) maxInt32 = hi := by omega
  simp only [array, hleast, hmost]

theorem view_joinPlain {f g : Fact} (hf : f.Plain) (hg : g.Plain) :
    (f.joinPlain g).map view = f.view.join g.view := by
  cases hf with
  | range lo hi h =>
    cases hg with
    | range lo' hi' h' =>
      have hrange : Fact.range (min lo lo') (max hi hi') = _ := range_eq (by omega)
      simp [joinPlain, view, FactView.join, asObject, hrange]
    | _ => simp [joinPlain, view, FactView.join, asObject, Fact.null]
  | null =>
    cases hg <;> simp [joinPlain, view, FactView.join, asObject, Fact.null]
  | object cls exact nonNull =>
    cases hg with
    | object cls' exact' nonNull' =>
      by_cases hkey : cls = cls' ∧ nonNull = nonNull'
      · obtain ⟨rfl, rfl⟩ := hkey
        cases exact <;> cases exact' <;> simp [joinPlain, view, FactView.join, asObject, Fact.object]
      · have hkey' : cls ≠ cls' ∨ nonNull ≠ nonNull' := by
          by_contra h
          simp only [not_or, Decidable.not_not] at h
          exact hkey h
        simp [joinPlain, view, FactView.join, asObject, hkey, hkey']
    | _ => simp [joinPlain, view, FactView.join, asObject, Fact.null]
  | array cls lo hi hlo h hhi =>
    cases hg with
    | array cls' lo' hi' hlo' h' hhi' =>
      by_cases hcls : cls = cls'
      · subst hcls
        have harray : Fact.array cls (min lo lo') (max hi hi') = _ :=
          array_eq (by omega) (by omega) (by omega)
        simp [joinPlain, view, FactView.join, asObject, harray]
      · simp [joinPlain, view, FactView.join, asObject, hcls]
    | _ => simp [joinPlain, view, FactView.join, asObject, Fact.null]

/-- Strings that differ join as objects of their class, like all other facts. -/
theorem join_eq (f g : Fact) :
    f.join g = if f = g then some f else f.asObject.joinPlain g.asObject := by
  unfold join
  split
  · rfl
  · split
    case isTrue hs =>
      rw [asObject, asObject, if_pos hs.1, if_pos hs.2]
      rfl
    case isFalse => rfl

theorem Made.view_asObject {k : Kind} {f : Fact} (h : f.Made k) :
    f.asObject.view = { f.view with text := none } := by
  cases h <;> rfl

/-- Two facts with the same text are one fact. -/
theorem Made.text_join {k : Kind} {f g : Fact} (hf : f.Made k) (hg : g.Made k) (hne : f ≠ g) :
    (if f.view.text = g.view.text then f.view.text else none) = none := by
  split
  case isTrue htext =>
    cases hf with
    | string s =>
      cases hg with
      | string s' =>
        cases htext
        exact absurd rfl hne
      | _ => cases htext
    | _ => rfl
  case isFalse => rfl

/-- Joins treat the parts of facts apart. -/
theorem view_join {k : Kind} {f g : Fact} (hf : f.Made k) (hg : g.Made k) :
    (f.join g).map view = f.view.join g.view := by
  rw [join_eq]
  split
  case isTrue heq => rw [heq, FactView.join_self, Option.map_some]
  case isFalse hne =>
    rw [view_joinPlain hf.plain hg.plain, hf.view_asObject, hg.view_asObject]
    simp only [FactView.join, hf.text_join hg hne, if_true]

theorem made_join {k : Kind} {f g j : Fact} (hf : f.Made k) (hg : g.Made k)
    (h : f.join g = some j) : j.Made k := by
  have hjoins := joins_of_join h
  cases hf with
  | int a b ha hb =>
    cases hg with
    | int a' b' ha' hb' =>
      cases hjoins with
      | self => exact .int a b ha hb
      | range =>
        simp only [Fact.range]
        exact .int _ _ (by omega) (by omega)
      | exactObject _ hk | object _ _ hk => rcases hk with hk | hk <;> cases hk
      | array hk => cases hk
  | long a b ha hb =>
    cases hg with
    | long a' b' ha' hb' =>
      cases hjoins with
      | self => exact .long a b ha hb
      | range =>
        simp only [Fact.range]
        exact .long _ _ (by omega) (by omega)
      | exactObject _ hk | object _ _ hk => rcases hk with hk | hk <;> cases hk
      | array hk => cases hk
  | null | exactObject | object | array | string =>
    cases hjoins with
    | self => constructor
    | range hk => cases hk
    | exactObject cls => exact .exactObject cls
    | object cls nonNull => exact .object cls nonNull
    | array => exact .array _ _ _

theorem factClass_made : FactClass fun k f => f.Made k where
  made h := h
  join := made_join
  length {f} hf harray := by
    cases hf with
    | array desc lo hi =>
      obtain ⟨hlo, hle, hhi⟩ := array_bounds desc lo hi
      have hmin : minInt32 ≤ 0 := by decide
      exact .int _ _ (by omega) (by omega)
    | _ => cases harray
  extend {f c} hf hc := by
    cases hf with
    | int a b ha hb =>
      obtain ⟨-, rfl, -⟩ := const?_eq_some hc
      unfold minInt32 maxInt32 at ha hb
      simp only [Fact.range]
      exact made_long (by omega) (by omega)

/-- Facts that are made are told apart by their parts. -/
theorem eq_of_map_view {k : Kind} {x y : Option Fact} (hx : ∀ f ∈ x, f.Made k)
    (hy : ∀ f ∈ y, f.Made k) (h : x.map view = y.map view) : x = y := by
  cases x with
  | none => exact (Option.map_eq_none_iff.1 h.symm).symm
  | some f =>
    obtain ⟨g, rfl, hg⟩ := Option.map_eq_some_iff.1 h.symm
    rw [view_inj (hx f rfl) (hy g rfl) hg.symm]

theorem join_comm {k : Kind} {f g : Fact} (hf : f.Made k) (hg : g.Made k) :
    f.join g = g.join f := by
  refine eq_of_map_view (fun j hj => made_join hf hg hj) (fun j hj => made_join hg hf hj) ?_
  rw [view_join hf hg, view_join hg hf, FactView.join_comm]

theorem join_assoc {k : Kind} {f g h : Fact} (hf : f.Made k) (hg : g.Made k) (hh : h.Made k) :
    (f.join g).bind (·.join h) = (g.join h).bind (f.join ·) := by
  have hleft : ((f.join g).bind (·.join h)).map view = (f.view.join g.view).bind (·.join h.view) := by
    rw [← view_join hf hg]
    cases hj : f.join g with
    | none => rfl
    | some j => exact view_join (made_join hf hg hj) hh
  have hright : ((g.join h).bind (f.join ·)).map view = (g.view.join h.view).bind (f.view.join ·) := by
    rw [← view_join hg hh]
    cases hj : g.join h with
    | none => rfl
    | some j => exact view_join hf (made_join hg hh hj)
  refine eq_of_map_view (k := k) ?_ ?_ (by rw [hleft, hright, FactView.join_assoc])
  · intro j hj
    obtain ⟨i, hi, hj⟩ := Option.bind_eq_some_iff.1 hj
    exact made_join (made_join hf hg hi) hh hj
  · intro j hj
    obtain ⟨i, hi, hj⟩ := Option.bind_eq_some_iff.1 hj
    exact made_join hf (made_join hg hh hi) hj

end Fact

/-! ## Slots -/

/-- The fact of a value is one that the constructors make. -/
abbrev Value.Made (v : Value) : Prop := v.Within fun k f => f.Made k

namespace Fact

variable {k : Kind} {f g h : Option Fact}

theorem join?_self (f : Option Fact) : join? f f = f := by
  cases f with
  | none => rfl
  | some f => simp [join?, join]

theorem join?_comm (hf : ∀ x ∈ f, x.Made k) (hg : ∀ x ∈ g, x.Made k) : join? f g = join? g f := by
  cases f with
  | none => cases g <;> rfl
  | some f =>
    cases g with
    | none => rfl
    | some g => exact join_comm (hf f rfl) (hg g rfl)

theorem join?_none_right (f : Option Fact) : join? f none = none := by
  cases f <;> rfl

theorem join?_some_right (f : Option Fact) (h : Fact) : join? f (some h) = f.bind (·.join h) := by
  cases f <;> rfl

theorem join?_assoc (hf : ∀ x ∈ f, x.Made k) (hg : ∀ x ∈ g, x.Made k) (hh : ∀ x ∈ h, x.Made k) :
    join? (join? f g) h = join? f (join? g h) := by
  cases h with
  | none => rw [join?_none_right, join?_none_right, join?_none_right]
  | some h =>
    cases g with
    | none => rw [join?_none_right]; exact (join?_none_right f).symm
    | some g =>
      cases f with
      | none => rfl
      | some f =>
        calc join? (f.join g) (some h)
          _ = (f.join g).bind (·.join h) := join?_some_right _ h
          _ = (g.join h).bind (f.join ·) := join_assoc (hf f rfl) (hg g rfl) (hh h rfl)
          _ = join? (some f) (g.join h) := by cases g.join h <;> rfl

end Fact

namespace Value

variable {u v w : Value}

/-- The join of two slots, if there is one. -/
def join? (v w : Value) : Option Value := (v.join w).toOption

theorem join?_eq_some : v.join? w = some u ↔ v.join w = .ok u := by
  unfold join?
  cases v.join w <;> simp [Except.toOption]

theorem join?_self (v : Value) : v.join? v = some v := by
  rw [join?_eq_some]
  cases v with
  | pad => rfl
  | slot k f p => simp [join, Fact.join?_self]

theorem join?_pad_slot (k : Kind) (f : Option Fact) (p : Option Nat) :
    Value.pad.join? (.slot k f p) = none := by
  simp only [join?, join]
  split <;> rfl

theorem join?_slot_pad (k : Kind) (f : Option Fact) (p : Option Nat) :
    (Value.slot k f p).join? .pad = none := by
  simp only [join?, join]
  split <;> rfl

theorem join?_slot (k k' : Kind) (f f' : Option Fact) (p p' : Option Nat) :
    (Value.slot k f p).join? (.slot k' f' p')
      = if k = k' then some (.slot k (Fact.join? f f') (if p = p' then p else none)) else none := by
  simp only [join?, join]
  by_cases hk : k = k'
  · simp [hk, Except.toOption]
  · simp [hk, Except.toOption]

theorem join?_comm (hv : v.Made) (hw : w.Made) : v.join? w = w.join? v := by
  cases v with
  | pad =>
    cases w with
    | pad => rfl
    | slot k f p => rw [join?_pad_slot, join?_slot_pad]
  | slot k f p =>
    cases w with
    | pad => rw [join?_pad_slot, join?_slot_pad]
    | slot k' f' p' =>
      rw [join?_slot, join?_slot]
      by_cases hk : k = k'
      · subst hk
        have hfacts : Fact.join? f f' = Fact.join? f' f := Fact.join?_comm hv hw
        rw [if_pos rfl, if_pos rfl, hfacts]
        by_cases hp : p = p'
        · simp [hp]
        · simp [hp, Ne.symm hp]
      · rw [if_neg hk, if_neg (Ne.symm hk)]

theorem join?_assoc (hu : u.Made) (hv : v.Made) (hw : w.Made) :
    (u.join? v).bind (·.join? w) = (v.join? w).bind (u.join? ·) := by
  cases u with
  | pad =>
    cases v with
    | pad =>
      rw [join?_self, Option.bind_some]
      cases w with
      | pad => rfl
      | slot k f p => rw [join?_pad_slot, Option.bind_none]
    | slot k f p =>
      rw [join?_pad_slot, Option.bind_none]
      cases w with
      | pad => rw [join?_slot_pad, Option.bind_none]
      | slot k' f' p' => rw [join?_slot]; split <;> simp [join?_pad_slot]
  | slot k f p =>
    cases v with
    | pad =>
      rw [join?_slot_pad, Option.bind_none]
      cases w with
      | pad => rw [join?_self, Option.bind_some, join?_slot_pad]
      | slot k' f' p' => rw [join?_pad_slot, Option.bind_none]
    | slot k' f' p' =>
      cases w with
      | pad =>
        rw [join?_slot_pad, Option.bind_none, join?_slot]
        split <;> simp [join?_slot_pad]
      | slot k'' f'' p'' =>
        by_cases hk : k = k'
        · subst hk
          by_cases hk' : k = k''
          · subst hk'
            have hfacts : Fact.join? (Fact.join? f f') f'' = Fact.join? f (Fact.join? f' f'') :=
              Fact.join?_assoc hu hv hw
            have hmarks : (if (if p = p' then p else none) = p''
                  then (if p = p' then p else none) else none)
                = if p = (if p' = p'' then p' else none) then p else none := by
              grind
            simp only [join?_slot, if_true, Option.bind_some, hfacts, hmarks]
          · simp [join?_slot, hk']
        · rw [join?_slot, if_neg hk, Option.bind_none, join?_slot]
          split <;> simp [join?_slot, hk]

theorem Made.join? (hv : v.Made) (hw : w.Made) (h : v.join? w = some u) : u.Made :=
  Within.join Fact.factClass_made hv hw (join?_eq_some.1 h)

end Value

theorem Value.made_unusable : Value.unusable.Made := by
  intro f hf
  cases hf

namespace Frame

variable {u v w : Value}

theorem mergeLocal_eq (v w : Value) : mergeLocal v w = (v.join? w).getD .unusable := by
  unfold mergeLocal Value.join?
  cases v.join w <;> rfl

theorem mergeLocal_self (v : Value) : mergeLocal v v = v := by
  rw [mergeLocal_eq, Value.join?_self, Option.getD_some]

theorem mergeLocal_comm (hv : v.Made) (hw : w.Made) : mergeLocal v w = mergeLocal w v := by
  rw [mergeLocal_eq, mergeLocal_eq, Value.join?_comm hv hw]

/-- Nothing can be read any more where one of the locals cannot. -/
theorem mergeLocal_unusable (v : Value) : mergeLocal v .unusable = .unusable := by
  rw [mergeLocal_eq]
  cases v with
  | pad => rw [Value.unusable, Value.join?_pad_slot, Option.getD_none]
  | slot k f p =>
    rw [Value.unusable, Value.join?_slot, Fact.join?_none_right]
    by_cases hk : k = .untyped
    · subst hk
      by_cases hp : p = none <;> simp [hp]
    · simp [hk]

theorem unusable_mergeLocal (v : Value) : mergeLocal .unusable v = .unusable := by
  rw [mergeLocal_eq]
  cases v with
  | pad => rw [Value.unusable, Value.join?_slot_pad, Option.getD_none]
  | slot k f p =>
    rw [Value.unusable, Value.join?_slot]
    by_cases hk : .untyped = k
    · simp [← hk, Fact.join?]
    · simp [hk]

theorem mergeLocal_assoc (hu : u.Made) (hv : v.Made) (hw : w.Made) :
    mergeLocal (mergeLocal u v) w = mergeLocal u (mergeLocal v w) := by
  have hassoc := Value.join?_assoc hu hv hw
  rw [mergeLocal_eq u v, mergeLocal_eq v w]
  cases huv : u.join? v with
  | none =>
    rw [huv, Option.bind_none] at hassoc
    rw [Option.getD_none, unusable_mergeLocal]
    cases hvw : v.join? w with
    | none => rw [Option.getD_none, mergeLocal_unusable]
    | some x =>
      rw [hvw, Option.bind_some] at hassoc
      rw [Option.getD_some, mergeLocal_eq, ← hassoc, Option.getD_none]
  | some x =>
    rw [huv, Option.bind_some] at hassoc
    rw [Option.getD_some, mergeLocal_eq, hassoc]
    cases hvw : v.join? w with
    | none => rw [Option.bind_none, Option.getD_none, mergeLocal_unusable]
    | some y => rw [Option.bind_some, Option.getD_some, mergeLocal_eq]

theorem made_mergeLocal (hv : v.Made) (hw : w.Made) : (mergeLocal v w).Made := by
  rw [mergeLocal_eq]
  cases h : v.join? w with
  | none => exact Value.made_unusable
  | some u => exact hv.join? hw h

/-- Only padding merges to padding. -/
theorem isPad_mergeLocal (v w : Value) : (mergeLocal v w).isPad = (v.isPad && w.isPad) := by
  rw [mergeLocal_eq]
  cases v with
  | pad =>
    cases w with
    | pad => rfl
    | slot k f p => rw [Value.join?_pad_slot]; rfl
  | slot k f p =>
    cases w with
    | pad => rw [Value.join?_slot_pad]; rfl
    | slot k' f' p' => rw [Value.join?_slot]; split <;> rfl

theorem mergeLocal_of_isPad (hv : v.isPad = true) (hw : w.isPad = false) :
    mergeLocal v w = .unusable := by
  rw [mergeLocal_eq, Value.eq_pad hv]
  cases w with
  | pad => cases hw
  | slot k f p => rw [Value.join?_pad_slot, Option.getD_none]

/-- Only 64-bit values merge to one. -/
theorem isWide_of_mergeLocal (h : (mergeLocal v w).isWide = true) :
    v.isWide = true ∧ w.isWide = true := by
  rw [mergeLocal_eq] at h
  cases hj : v.join? w with
  | none =>
    rw [hj] at h
    cases h
  | some u =>
    rw [hj, Option.getD_some] at h
    obtain ⟨rfl, rfl, rfl⟩ | ⟨k, f, p, f', p', rfl, rfl, rfl⟩ :=
      Value.join_eq_ok.1 (Value.join?_eq_some.1 hj)
    · exact ⟨h, h⟩
    · exact ⟨h, h⟩

theorem mergeLocal_not_wide (hv : v.isWide = false) : (mergeLocal v w).isWide = false := by
  by_contra h
  rw [Bool.not_eq_false] at h
  rw [(isWide_of_mergeLocal h).1] at hv
  cases hv

end Frame

end InlinePlan

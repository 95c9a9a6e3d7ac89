import InlinePlan.Proofs.Analysis.Effect

set_option autoImplicit false

/-! # Moving values around

The operations that are not plain move values between the locals and the stack, or within one of
them. `Moves` says what each of them does to a frame, and `transfer_moves` that the analysis does
just that and notes nothing. -/

namespace InlinePlan

open InlinePlan.Frame

/-- What an operation that is not plain does to a frame. -/
inductive Frame.Moves (ins : Instruction) (f : Frame) : Operation → Frame → Prop where
  | load (k : Kind) (slot : Option Nat) (hread : (f.localAt ins.slot).isReadable = true)
      (hk : (f.localAt ins.slot).kind = k) :
      Moves ins f (.load k slot) ⟨f.locals, cells (f.localAt ins.slot) ++ f.stack⟩
  | store (k : Kind) (slot : Option Nat) (v : Value) (n : Nat) (f₁ f' : Frame)
      (ht : Takes f [v] f₁) (hk : v.kind = k) (hn : ins.slot = n) (hs : Stores f₁ n v f') :
      Moves ins f (.store k slot) f'
  | increment (n : Nat) (f' : Frame) (hk : (f.localAt ins.index).kind = .int)
      (hn : ins.index = n)
      (hs : Stores f n (constOrTop .int ((f.localAt ins.index).const?.map
        fun c => wrap 32 (c + ins.imm))) f') :
      Moves ins f .increment f'
  | pop (v : Value) (f' : Frame) (hf : f = ⟨f'.locals, v :: f'.stack⟩) (hv : v.isPad = false) :
      Moves ins f .pop f'
  | dup (v : Value) (f' : Frame) (hf : f = ⟨f'.locals, v :: f'.stack⟩) (hv : v.isPad = false) :
      Moves ins f .dup ⟨f'.locals, v :: v :: f'.stack⟩
  | shuffle (p : Shuffle) (taken rest : List Value) (f' : Frame) (hlen : taken.length = p.count)
      (hf : f = ⟨f'.locals, taken ++ rest⟩)
      (hs : f'.stack = (p.pattern.filterMap (taken[·]?)).reverse ++ rest)
      (hb : ∀ i ∈ p.bottoms, (taken[i]?).any Value.isPad = false) :
      Moves ins f (.shuffle p) f'
  | throwObject (v : Value) (f' : Frame) (ht : Takes f [v] f') :
      Moves ins f .throwObject ⟨f'.locals, []⟩

namespace Step

variable {s : Subject} {ins : Instruction} {m m' : Machine}

theorem transfer_moves {b : Nat} {fr : Int} {o : Operation} {u : Unit} (ho : o.isPlain = false)
    (h : transfer s b fr ins o m = .ok u m') :
    Moves ins m.frame o m'.frame ∧ m'.predicates = m.predicates := by
  cases o with
  | load k slot =>
    simp only [transfer, bind_eq_ok, liftM_eq_ok, load_eq_ok, push_eq_ok] at h
    obtain ⟨v, m₁, ⟨f, ⟨rfl, rfl, hread, hkv, -⟩, rfl⟩, f', rfl, rfl⟩ := h
    exact ⟨.load k slot hread hkv, rfl⟩
  | store k slot =>
    simp only [transfer, bind_eq_ok, liftM_eq_ok] at h
    obtain ⟨v, m₁, ⟨f, hpop, rfl⟩, f', hstore, rfl⟩ := h
    obtain ⟨ht, hk⟩ := Frame.pop_takes hpop
    obtain ⟨n, hn, hs⟩ := store_ok hstore
    exact ⟨.store k slot v n f f' ht hk hn hs, rfl⟩
  | increment =>
    simp only [transfer, liftM_eq_ok, Frame.increment, bind_eq_ok, load_eq_ok] at h
    obtain ⟨f, ⟨v, f₁, ⟨rfl, rfl, -, hkv, -⟩, hstore⟩, rfl⟩ := h
    obtain ⟨n, hn, hs⟩ := store_ok hstore
    exact ⟨.increment n f hkv hn hs, rfl⟩
  | pop =>
    simp only [transfer, discard_eq_ok, liftM_eq_ok] at h
    obtain ⟨v, f, hpop, rfl⟩ := h
    exact ⟨.pop v f (popSingle_ok hpop).1 (popSingle_ok hpop).2, rfl⟩
  | dup =>
    simp only [transfer, bind_eq_ok, liftM_eq_ok, pushSlot_eq_ok] at h
    obtain ⟨v, m₁, ⟨f, hpop, rfl⟩, _, m₂, ⟨f₂, rfl, rfl⟩, f₃, rfl, rfl⟩ := h
    exact ⟨.dup v f (popSingle_ok hpop).1 (popSingle_ok hpop).2, rfl⟩
  | shuffle p =>
    obtain ⟨f, hf, rfl⟩ := liftM_eq_ok.1 h
    obtain ⟨taken, rest, hlen, hframe, hstack, hbottoms⟩ := shuffle_ok hf
    exact ⟨.shuffle p taken rest f hlen hframe hstack hbottoms, rfl⟩
  | throwObject =>
    simp only [transfer, bind_eq_ok, discard_eq_ok, liftM_eq_ok, Frame.clear, modify_eq_ok] at h
    obtain ⟨_, m₁, ⟨v, f, hpop, rfl⟩, f', rfl, rfl⟩ := h
    exact ⟨.throwObject v f (Frame.pop_takes hpop).1, rfl⟩
  | _ => cases ho

end Step

end InlinePlan

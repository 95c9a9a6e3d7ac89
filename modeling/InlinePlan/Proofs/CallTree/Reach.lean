import InlinePlan.Proofs.CallTree.Steps
import InlinePlan.Proofs.Program.Dispatch

set_option autoImplicit false

/-! # Growth within a program

The calls that a method of a program offers are of declared methods (`declares_of_offer`), and if the
classes are acyclic every call resolves (`endless_notMem_offers`). A path has no method twice, so it
is never longer than the list of methods; `Place.Charted` says that the fuel is enough for the rest of
the methods. -/

namespace InlinePlan

/-! ## Offers of a program -/

theorem Program.resolve_of_catalog {prog : Program} {site : SiteRef} {ms : List Method}
    (h : prog.catalog.resolve site = .methods ms) :
    prog.resolve site.kind (some site.ref) = some ms := by
  simp only [catalog] at h
  split at h
  · cases h
    assumption
  · cases h

/-- A catalog that answers as a program does. When it is cancelled and how far it reaches is its own
    affair. -/
structure Catalog.Serves (c : Catalog) (prog : Program) : Prop where
  graph_eq : c.graph = prog.catalog.graph
  resolve_eq : c.resolve = prog.catalog.resolve
  isSubtype_eq : c.isSubtype = prog.catalog.isSubtype

theorem Catalog.Serves.of_eq {c : Catalog} {prog : Program} (h : c = prog.catalog) : c.Serves prog := by
  subst h
  exact ⟨rfl, rfl, rfl⟩

namespace Builder

variable {b : Builder} {prog : Program} {m callee : Method} {r : Reading} {site : CallSite}
  {ratio : Float} {entryFrequency : Int}

theorem mem_of_call_mem_offersAt {site' : CallSite}
    (h : .call site' ratio callee ∈ b.offersAt entryFrequency site) :
    site' = site ∧ ∃ ms, b.catalog.resolve site.siteRef = .methods ms ∧ callee ∈ ms := by
  unfold offersAt at h
  split at h
  · simp at h
  · simp at h
  · simp at h
  · rename_i ms _ hms
    split at h
    · simp at h
    · simp only [List.mem_map, Offer.call.injEq] at h
      obtain ⟨callee', hmem, rfl, -, rfl⟩ := h
      exact ⟨rfl, ms, hms, hmem⟩

theorem endless_of_mem_offersAt (h : .endless ∈ b.offersAt entryFrequency site) :
    b.catalog.resolve site.siteRef = .endless := by
  unfold offersAt at h
  split at h
  · assumption
  · simp at h
  · simp at h
  · split at h <;> simp at h

/-- A method is summarized by a run over its graph, which also reached the calls it offers. -/
theorem read_summarized {summary : Summary} {offers : List Offer}
    (h : b.read m = .ok (.summarized summary offers)) :
    ∃ g result, b.catalog.graph m = .ok g ∧ ((b.subject m).run g false).outcome = .ok result
      ∧ summary = result.summary
      ∧ offers = ((b.subject m).run g false).calls.flatMap (b.offersAt g.entryFrequency) := by
  unfold read at h
  split at h
  · cases h
  · rename_i g hg
    dsimp only at h
    split at h
    · cases h
    · cases h
    · cases h
    · split at h <;> cases h
    · rename_i result hresult
      cases h
      exact ⟨g, result, hg, hresult, rfl, rfl⟩

theorem exists_site_of_offer (hread : b.read m = .ok r) {offer : Offer} (h : offer ∈ r.offers) :
    ∃ g result, b.catalog.graph m = .ok g ∧ ((b.subject m).run g false).outcome = .ok result
      ∧ ∃ site ∈ ((b.subject m).run g false).calls, offer ∈ b.offersAt g.entryFrequency site := by
  cases r with
  | noCode reason => cases h
  | failed fault => cases h
  | summarized summary offers =>
    obtain ⟨g, result, hg, hresult, -, rfl⟩ := read_summarized hread
    obtain ⟨site, hsite, hoffer⟩ := List.mem_flatMap.1 h
    exact ⟨g, result, hg, hresult, site, hsite, hoffer⟩

/-- Only declared methods are offered. -/
theorem declares_of_offer (hserves : b.catalog.Serves prog) (hread : b.read m = .ok r)
    (h : .call site ratio callee ∈ r.offers) : prog.Declares callee := by
  obtain ⟨_, _, -, -, site', -, hsite⟩ := exists_site_of_offer hread h
  obtain ⟨-, ms, hms, hmem⟩ := mem_of_call_mem_offersAt hsite
  rw [hserves.resolve_eq] at hms
  exact Program.declares_of_mem_resolve (Program.resolve_of_catalog hms) hmem

/-- Every call of a program with acyclic classes resolves. -/
theorem endless_notMem_offers (hserves : b.catalog.Serves prog) (hacyclic : prog.Acyclic)
    (hread : b.read m = .ok r) : .endless ∉ r.offers := by
  intro h
  obtain ⟨_, _, -, -, site, -, hsite⟩ := exists_site_of_offer hread h
  have hresolve := endless_of_mem_offersAt hsite
  rw [hserves.resolve_eq] at hresolve
  simp only [Program.catalog] at hresolve
  split at hresolve
  · cases hresolve
  · rename_i hnone
    exact hacyclic.resolve_ne_none _ _ hnone

end Builder

/-! ## Fuel -/

/-- The path of a place has no method twice and only methods among `ids`, and the fuel is enough for
    as many more as there are. -/
structure Place.Charted (ids : List MethodId) (fuel : Nat) (p : Place) : Prop where
  nodup : p.path.Nodup
  subset : p.path ⊆ ids
  enough : ids.length < fuel + p.path.length

namespace Place.Charted

variable {ids : List MethodId} {fuel : Nat} {p : Place} {callee : Method}

theorem fuel_pos (h : p.Charted ids fuel) : 0 < fuel := by
  have hle := (List.subperm_of_subset h.nodup h.subset).length_le
  have := h.enough
  omega

theorem child (h : p.Charted ids (fuel + 1)) (hnew : callee.id ∉ p.path) (hmem : callee.id ∈ ids)
    (id : NodeId) (ratio : Float) : (p.child id callee ratio).Charted ids fuel where
  nodup := List.nodup_cons.2 ⟨hnew, h.nodup⟩
  subset := List.cons_subset.2 ⟨hmem, h.subset⟩
  enough := by
    have := h.enough
    simp only [Place.child, List.length_cons]
    omega

end Place.Charted

/-- The place of a root is charted by its method and those of the program. -/
theorem Builder.charted_rootPlace (prog : Program) (root : Method) (budget : Int) :
    (rootPlace root budget).Charted (root.id :: prog.ids) prog.catalog.reach where
  nodup := List.pairwise_singleton _ _
  subset := by simp [rootPlace]
  enough := by simp [rootPlace, Program.catalog, Program.ids]

end InlinePlan

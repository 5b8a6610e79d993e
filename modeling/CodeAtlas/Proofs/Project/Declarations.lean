import Mathlib
import CodeAtlas.Proofs.Project.Synchrony

/-!
# What the settings declare

The standard plugins look at a project only to see whether a handler or a listener is defined in it.
So they find the same in the settings on any two views that define the same of these names. If the
settings declare no edge, they find the same on all views.

Main results:

* `Plugin.sameFindings_of_defined`, `Plugin.sameFindings_of_silent`: when findings agree.
* `Plugin.owner_of_mem_settingsEdges`: every edge of the settings is owned by them.
-/

namespace CodeAtlas

open SortedMap SymbolLookup

/-- The names that the settings mention: handlers of routes, and listeners. -/
def EnrichmentSettings.mentioned (e : EnrichmentSettings) : List String :=
  e.routes.map (·.handler) ++ e.events.listeners.entries.flatMap (·.2)

/-- Both snapshots define a name, or neither does. -/
def Snapshot.DefineAlike (s s' : Snapshot) (fqn : String) : Prop :=
  (findDefined? s fqn).isSome = (findDefined? s' fqn).isSome

/-! ## One declaration -/

theorem Routes.missingHandler?_congr {v v' : View} {r : Route}
    (h : v.snapshot.DefineAlike v'.snapshot r.handler) :
    missingHandler? v r = missingHandler? v' r := by
  unfold Snapshot.DefineAlike at h
  unfold missingHandler?
  cases hv : findDefined? v.snapshot r.handler <;>
    cases hv' : findDefined? v'.snapshot r.handler <;> simp_all

theorem Routes.declaredEdge_congr {v v' : View} {r : Route}
    (h : v.snapshot.DefineAlike v'.snapshot r.handler) (index : Nat) :
    declaredEdge v r index = declaredEdge v' r index := by
  unfold declaredEdge
  rw [missingHandler?_congr h]

/-- A listener that is defined is the source of its edge, under the identifier of its name. -/
theorem Events.listenerEdge_congr {v v' : View} (hv : v.snapshot.Named) (hv' : v'.snapshot.Named)
    (event : String) {listener : String} (h : v.snapshot.DefineAlike v'.snapshot listener) :
    listenerEdge v event listener = listenerEdge v' event listener := by
  unfold Snapshot.DefineAlike at h
  unfold listenerEdge
  cases hs : findDefined? v.snapshot listener with
  | none =>
    rw [hs] at h
    rw [Option.isNone_iff_eq_none.1 (Option.isSome_eq_false_iff.1 h.symm)]
  | some s =>
    rw [hs] at h
    obtain ⟨s', hs'⟩ := Option.isSome_iff_exists.1 h.symm
    rw [hs']
    dsimp only
    rw [hv (findDefined?_eq_some.1 hs).1, hv' (findDefined?_eq_some.1 hs').1]

/-! ## All declarations -/

namespace Plugin

variable {plugins : List Plugin} {e : EnrichmentSettings} {v v' : View}

/-- Every plugin that applies finds the same in the settings on both views. -/
def SameFindings (plugins : List Plugin) (e : EnrichmentSettings) (v v' : View) : Prop :=
  ∀ plugin ∈ active plugins e, plugin.analyzeSettings e v = plugin.analyzeSettings e v'

theorem SameFindings.settingsEdges (h : SameFindings plugins e v v') (t t' : Table) :
    (Plugin.settingsEdges plugins e v t).1 = (Plugin.settingsEdges plugins e v' t').1 := by
  unfold Plugin.settingsEdges
  rw [List.map_congr_left h]

theorem sameFindings_of_defined (hstandard : plugins ⊆ standard) (hv : v.snapshot.Named)
    (hv' : v'.snapshot.Named) (h : ∀ fqn ∈ e.mentioned, v.snapshot.DefineAlike v'.snapshot fqn) :
    SameFindings plugins e v v' := by
  have hroute : ∀ r ∈ e.routes, v.snapshot.DefineAlike v'.snapshot r.handler := fun r hr =>
    h _ (List.mem_append_left _ (List.mem_map_of_mem hr))
  have hlistener : ∀ x ∈ e.events.listeners.entries, ∀ fqn ∈ x.2,
      v.snapshot.DefineAlike v'.snapshot fqn := fun x hx fqn hfqn =>
    h _ (List.mem_append_right _ (List.mem_flatMap.2 ⟨x, hx, hfqn⟩))
  intro plugin hp
  rcases mem_standard.1 (hstandard (List.mem_filter.1 hp).1) with rfl | rfl | rfl
  · rfl
  · show SettingsFindings.mk _ _ = SettingsFindings.mk _ _
    congr 1
    refine List.flatMap_congr fun x hx => ?_
    exact List.map_congr_left fun fqn hfqn =>
      Events.listenerEdge_congr hv hv' x.1 (hlistener x hx fqn hfqn)
  · show SettingsFindings.mk _ _ = SettingsFindings.mk _ _
    congr 1
    · exact List.filterMap_congr fun r hr => Routes.missingHandler?_congr (hroute r hr)
    · refine List.mapIdx_eq_mapIdx_iff.2 fun i hi => ?_
      exact Routes.declaredEdge_congr (hroute _ (List.getElem_mem hi)) i

/-- Where the settings declare no edge there are no routes, and nobody listens to an event. -/
theorem sameFindings_of_silent (hstandard : plugins ⊆ standard) (h : Silent plugins e v)
    (v' : View) : SameFindings plugins e v v' := by
  have h' : Silent plugins e v' := steady_of_subset_standard hstandard e v v' h
  intro plugin hp
  have hedges := h plugin hp
  have hedges' := h' plugin hp
  rcases mem_standard.1 (hstandard (List.mem_filter.1 hp).1) with rfl | rfl | rfl
  · rfl
  · show SettingsFindings.mk _ _ = SettingsFindings.mk _ _
    congr 1
    exact hedges.trans hedges'.symm
  · have hnil : e.routes = [] := List.mapIdx_eq_nil_iff.1 hedges
    simp [Routes.plugin, hnil]

theorem owner_of_mem_settingsEdges (hstandard : plugins ⊆ standard) {t : Table} {x : Edge}
    (hx : x ∈ (Plugin.settingsEdges plugins e v t).1) : x.owner = settingsFile := by
  obtain ⟨plugin, hp, hx⟩ := Run.mem_settingsEdges.1 hx
  rcases mem_standard.1 (hstandard (List.mem_filter.1 hp).1) with rfl | rfl | rfl
  · cases hx
  · obtain ⟨declared, -, hx⟩ := List.mem_flatMap.1 hx
    obtain ⟨listener, -, rfl⟩ := List.mem_map.1 hx
    unfold Events.listenerEdge
    dsimp only
    split <;> rfl
  · obtain ⟨i, hi, rfl⟩ := List.mem_mapIdx.1 hx
    rfl

end Plugin

end CodeAtlas

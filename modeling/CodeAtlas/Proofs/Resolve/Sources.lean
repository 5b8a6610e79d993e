import Mathlib
import CodeAtlas.Proofs.Resolve.Findings

/-!
# Where edges start

Resolution and the standard plugins never choose the source of an edge freely: the edges of a file
start at a symbol that the file defines, and belong to the file. The edges of the settings start at
the node of the settings, or at a listener that the project defined when they were computed.

Main results:

* `View.findings_starts`, `Plugin.standard_starts`: the edges of a file.
* `Plugin.standard_sound`: what the standard plugins find, `Plugin.standard_type` among it.
* `Plugin.standard_settings_starts`: the edges of the settings.
-/

namespace CodeAtlas

/-! ## Symbols of a file -/

namespace FileSketch

variable {f : FileSketch}

/-- The file defines a symbol with this identifier. -/
def Defines (f : FileSketch) (id : SymbolId) : Prop := ∃ s ∈ f.assembleSymbols, s.id = id

theorem assembleSymbols_id (f : FileSketch) {s : Symbol} (h : s ∈ f.assembleSymbols) :
    s.id = .ofFqn s.fqn := by
  rcases List.mem_cons.1 h with rfl | h
  · rfl
  · obtain ⟨x, -, rfl⟩ := List.mem_map.1 h
    rfl

theorem defines_path (f : FileSketch) : f.Defines (.ofFqn f.path) :=
  ⟨f.fileSymbol, List.mem_cons_self .., rfl⟩

theorem defines_qualify {relative : String} {s : SymbolSketch} (h : f.symbolAt? relative = some s) :
    f.Defines (.ofFqn (f.qualify relative)) := by
  have hmem : s ∈ f.symbols := List.mem_reverse.1 (List.mem_of_find?_eq_some h)
  refine ⟨f.assembleSymbol s, List.mem_cons_of_mem _ (List.mem_map_of_mem hmem), ?_⟩
  rw [← relativePath_of_symbolAt? h]
  rfl

theorem defines_sourceId (f : FileSketch) (source : Option String) :
    f.Defines (f.sourceId source) := by
  unfold sourceId
  split
  · split
    · next hsome =>
      obtain ⟨s, hs⟩ := Option.isSome_iff_exists.1 hsome
      exact defines_qualify hs
    · exact f.defines_path
  · exact f.defines_path

/-- The enclosing type of a place is a definition of the file, unless it was known before. -/
theorem defines_enclosing (f : FileSketch) (relative : String) (found e : Scope.Enclosing)
    {t : String} (he : Scope.enclosing? f relative found = some e) (h : e.type = some t) :
    found.type = some t ∨ f.Defines (.ofFqn t) := by
  fun_induction Scope.enclosing? f relative found with
  | case1 =>
    cases he
    exact .inl h
  | case2 relative found s hs =>
    cases he
    cases h
    exact .inr (defines_qualify hs)
  | case3 relative found s hs found' =>
    left
    rw [← Option.some.inj he] at h
    dsimp only [found'] at h
    split at h <;> exact h
  | case4 => cases he
  | case5 relative found s hs found' hkind parent hparent hne ih =>
    refine (ih he).imp_left fun hfound => ?_
    dsimp only [found'] at hfound
    split at hfound <;> exact hfound

theorem defines_scopeAt {r : ReferenceSketch} {t : String}
    (h : (f.scopeAt r).enclosingType = some t) : f.Defines (.ofFqn t) := by
  unfold scopeAt Scope.enter at h
  dsimp only at h
  split at h
  · cases h
  · split at h
    · next e he => exact (f.defines_enclosing _ {} e he h).resolve_left nofun
    · rw [Scope.endless_eq_none] at h
      cases h

end FileSketch

/-! ## Findings of a file -/

/-- What resolution finds in a file starts at a symbol of the file. -/
theorem View.findings_starts (v : View) {f : FileSketch} {found : Finding}
    (h : found ∈ v.findings f) : found.edge.owner = f.path ∧ f.Defines found.edge.source := by
  obtain ⟨o, source, hr, howner, hsource⟩ := v.findings_resolved h
  rw [hr.sound.owner, hr.sound.source, howner, hsource]
  exact ⟨rfl, f.defines_sourceId source⟩

/-! ## Findings of the plugins -/

namespace Origin

variable {s : Snapshot} (o : Origin)

theorem toSymbol_sound {x : Symbol} {fqn : String} {score : Float}
    (found : s.symbols.get? fqn = some x)
    (hscore : 0 < Edge.clamp score ∧ (false = true ↔ Edge.clamp score ≤ 0.3)) :
    (o.toSymbol x score).Sound s o :=
  (o.toSymbol_annotated score x).sound_symbol found hscore

theorem toTemplate_sound {x : Symbol} {score : Float} (hid : x.id = .ofFqn x.fqn)
    (hscore : 0 < Edge.clamp score ∧ (false = true ↔ Edge.clamp score ≤ 0.3)) :
    (o.toTemplate x score).Sound s o :=
  (o.toTemplate_annotated score x).sound_template hid hscore

theorem toDynamic_sound (fqn : String) :
    ((o.toPlaceholder fqn Confidence.computed).withMeta "dynamic" (.bool true)).Sound s o :=
  (o.toPlaceholder_annotated _ fqn).withDynamic.sound_template rfl (by decide)

theorem toComputed_sound (text : String) : (o.toComputed text).Sound s o :=
  (o.toDynamic_sound _).withMeta _ (by decide)

end Origin

namespace Services

/-- An implementation outside the project has half the score, which is not yet a low one. -/
theorem injection_sound (v : View) (o : Origin) (implementation : String) {base : Float}
    (hbase : base = Confidence.exact ∨ base = Confidence.propagatedKey) :
    (injection v o implementation base).Sound v.snapshot o := by
  unfold injection
  split
  · next x hx =>
    rcases hbase with rfl | rfl <;>
      exact o.toSymbol_sound (findDefined?_eq_some.1 hx).1 (by decide)
  · refine Finding.Sound.withMeta ?_ _ (by decide)
    rcases hbase with rfl | rfl <;> exact o.toTemplate_sound rfl (by decide)

theorem keyed_sound (e : EnrichmentSettings) (v : View) (o : Origin) (key : String) {base : Float}
    (hbase : base = Confidence.exact ∨ base = Confidence.propagatedKey) :
    (keyed e v o key base).Sound v.snapshot o := by
  unfold keyed
  split
  · exact injection_sound v o _ hbase
  · exact o.toDynamic_sound _

theorem lookup_sound (e : EnrichmentSettings) (v : View) (f : FileSketch) (r : ReferenceSketch) :
    (lookup e v f r).Sound v.snapshot ⟨.injects, f.sourceId r.source, f.path, r.line⟩ := by
  unfold lookup
  dsimp only
  split
  · exact (keyed_sound e v _ _ (.inl rfl)).withMeta _ (by decide)
  · split
    · have hkeyed := fun o key => keyed_sound e v o key (.inr rfl)
      split
      · exact ((hkeyed _ _).withMeta _ (by decide)).withMeta _ (by decide)
      · exact (hkeyed _ _).withMeta _ (by decide)
    · exact Origin.toComputed_sound _ _
  · exact Origin.toComputed_sound _ _

/-- An injection into a constructor starts at the type of the constructor. -/
theorem finding?_sound {e : EnrichmentSettings} {v : View} {f : FileSketch} {r : ReferenceSketch}
    {found : Finding} (h : finding? e v f r = some found) :
    ∃ source, f.Defines source ∧ found.Sound v.snapshot ⟨.injects, source, f.path, r.line⟩ := by
  unfold finding? at h
  split at h
  · cases h
    exact ⟨_, f.defines_sourceId r.source, lookup_sound e v f r⟩
  · split at h
    · unfold constructorInjection? at h
      split at h
      · obtain ⟨implementation, -, rfl⟩ := Option.map_eq_some_iff.1 h
        refine ⟨_, ?_, ((injection_sound v _ implementation (.inl rfl)).withMeta _
          (by decide)).withMeta _ (by decide)⟩
        split
        · next t ht => exact f.defines_scopeAt ht
        · exact f.defines_sourceId r.source
      · cases h
    · cases h
  · cases h

end Services

theorem Events.finding_sound (s : Snapshot) (f : FileSketch) (r : ReferenceSketch)
    (type : EdgeType) : (finding f r type).Sound s ⟨type, f.sourceId r.source, f.path, r.line⟩ := by
  unfold finding
  dsimp only
  split
  · exact (Origin.toTemplate_sound _ rfl (by decide)).withMeta _ (by decide)
  · split
    · exact ((Origin.toTemplate_sound _ rfl (by decide)).withMeta _ (by decide)).withMeta _
        (by decide)
    · exact Origin.toComputed_sound _ _
  · exact Origin.toComputed_sound _ _

/-- The handler of an annotated route is a frozen symbol of any kind, also a placeholder. -/
theorem Routes.handlerEdge_sound (v : View) (f : FileSketch) (r : ReferenceSketch) :
    (handlerEdge v f r).Sound v.snapshot ⟨.routesTo, .ofFqn f.path, f.path, r.line⟩ := by
  unfold handlerEdge
  dsimp only
  split
  · split
    · next x hx =>
      obtain ⟨fqn, hfqn⟩ := SortedMap.mem_values.1 (List.mem_of_find?_eq_some hx)
      exact Origin.toSymbol_sound _ hfqn (by decide)
    · exact Origin.toTemplate_sound _ rfl (by decide)
  · split
    · exact (v.named_resolved _ _ _ _).sound
    · exact Origin.toDynamic_sound _ _
    · exact Origin.toDynamic_sound _ _

theorem Routes.finding_sound (v : View) (f : FileSketch) (r : ReferenceSketch) :
    (finding v f r).Sound v.snapshot ⟨.routesTo, .ofFqn f.path, f.path, r.line⟩ := by
  have hmethod (value : Json) := (handlerEdge_sound v f r).withMeta value
    (show "dynamic" ≠ "method" by decide)
  unfold finding
  dsimp only
  split
  · exact (hmethod _).withMeta _ (by decide)
  · exact hmethod _

namespace Plugin

variable {plugin : Plugin} {e : EnrichmentSettings} {v : View} {f : FileSketch} {l : List Finding}
  {found : Finding}

theorem mem_standard : plugin ∈ standard ↔
    plugin = Services.plugin ∨ plugin = Events.plugin ∨ plugin = Routes.plugin := by
  simp [standard]

section

variable (hp : plugin ∈ standard)

include hp

/-- A standard plugin always has a result. -/
theorem standard_done (e : EnrichmentSettings) (v : View)
    (f : FileSketch) : ∃ l, (plugin.analyzeFile e v f).outcome = .done l := by
  rcases mem_standard.1 hp with rfl | rfl | rfl <;> exact ⟨_, rfl⟩

/-- What a standard plugin finds in a file starts at a symbol of the file, and is no edge to a type or
a value. -/
theorem standard_sound (hl : (plugin.analyzeFile e v f).outcome = .done l) (h : found ∈ l) :
    ∃ o, found.Sound v.snapshot o ∧ o.owner = f.path ∧ f.Defines o.source ∧
      o.type.leadsToTypeOrValue = false := by
  rcases mem_standard.1 hp with rfl | rfl | rfl
  · cases hl
    obtain ⟨r, -, hr⟩ := List.mem_filterMap.1 h
    obtain ⟨source, hsource, hsound⟩ := Services.finding?_sound hr
    exact ⟨_, hsound, rfl, hsource, rfl⟩
  · cases hl
    obtain ⟨r, -, hr⟩ := List.mem_filterMap.1 h
    obtain ⟨type, htype, rfl⟩ := Option.map_eq_some_iff.1 hr
    refine ⟨_, Events.finding_sound _ f r type, rfl, f.defines_sourceId r.source, ?_⟩
    unfold Events.edgeType? at htype
    split at htype <;> cases htype <;> rfl
  · cases hl
    split at h
    · obtain ⟨r, -, rfl⟩ := List.mem_map.1 h
      exact ⟨_, Routes.finding_sound v f r, rfl, f.defines_path, rfl⟩
    · cases h

theorem standard_starts (hl : (plugin.analyzeFile e v f).outcome = .done l) (h : found ∈ l) :
    found.edge.owner = f.path ∧ f.Defines found.edge.source := by
  obtain ⟨o, hs, howner, hsource, -⟩ := standard_sound hp hl h
  exact ⟨hs.owner.trans howner, hs.source ▸ hsource⟩

theorem standard_type (hl : (plugin.analyzeFile e v f).outcome = .done l) (h : found ∈ l) :
    found.edge.type.leadsToTypeOrValue = false := by
  obtain ⟨o, hs, -, -, htype⟩ := standard_sound hp hl h
  exact hs.type ▸ htype

end

end Plugin

/-! ## The settings -/

/-- The settings declare a listener. -/
def EnrichmentSettings.DeclaresListener (e : EnrichmentSettings) (listener : String) : Prop :=
  ∃ event listeners, e.events.listeners.get? event = some listeners ∧ listener ∈ listeners

/-- Without declared routes and listeners the standard plugins find nothing in the settings. -/
theorem Plugin.standard_settings {plugin : Plugin} (hp : plugin ∈ standard)
    {e : EnrichmentSettings} (he : e.hasOwnEdges = false) (v : View) :
    (plugin.analyzeSettings e v).edges = [] := by
  simp only [EnrichmentSettings.hasOwnEdges, Bool.or_eq_false_iff, Bool.not_eq_false',
    List.isEmpty_iff, SortedMap.isEmpty] at he
  rcases mem_standard.1 hp with rfl | rfl | rfl
  · rfl
  · simp [Events.plugin, he.2]
  · simp [Routes.plugin, he.1]

/-- What the standard plugins find in the settings belongs to the settings, and starts at their node
or at a declared listener. -/
theorem Plugin.standard_settings_starts {plugin : Plugin} (hp : plugin ∈ standard)
    {s : EnrichmentSettings} {v : View}
    (hv : ∀ {fqn x}, v.snapshot.symbols.get? fqn = some x → x.id = .ofFqn fqn) {e : Edge}
    (he : e ∈ (plugin.analyzeSettings s v).edges) :
    e.owner = settingsFile ∧ (e.source = .ofFqn settingsFile ∨
      e.type = .listens ∧ ∃ l, s.DeclaresListener l ∧ e.source = .ofFqn l) := by
  rcases mem_standard.1 hp with rfl | rfl | rfl
  · cases he
  · obtain ⟨⟨event, listeners⟩, hentry, he⟩ := List.mem_flatMap.1 he
    obtain ⟨l, hl, rfl⟩ := List.mem_map.1 he
    unfold Events.listenerEdge
    dsimp only
    split
    · next handler hh =>
      refine ⟨rfl, .inr ⟨rfl, l, ⟨event, listeners, SortedMap.mem_entries_iff.1 hentry, hl⟩, ?_⟩⟩
      exact hv (findDefined?_eq_some.1 hh).1
    · exact ⟨rfl, .inl rfl⟩
  · obtain ⟨i, hi, rfl⟩ := List.mem_mapIdx.1 he
    exact ⟨rfl, .inl rfl⟩

end CodeAtlas

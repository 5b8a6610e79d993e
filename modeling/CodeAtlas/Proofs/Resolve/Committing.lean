import Mathlib
import CodeAtlas.Proofs.Resolve.Sources
import CodeAtlas.Proofs.Table.Listing

/-!
# Edges that a table accepts

Whatever resolution or a standard plugin finds in a file can be stored: its edges belong to the file,
start at symbols of the file, and lead to symbols that the table knows once it has learnt the
placeholders. In between the table may only have learnt placeholders and stored edges, for a symbol
that is gone cannot be led to.

Main results:

* `View.countP_edges`: every import and every reference has one edge.
* `Table.appendEdges_of_admissible`: appending loses no edge.
* `Table.takesFrom_after`: the edges of a standard plugin are accepted.
* `Table.references_become_edges`: the edges of a file are accepted.
-/

namespace CodeAtlas

open SortedMap SymbolLookup

/-! ## How many edges there are -/

namespace View

variable (v : View)

theorem referenceEdge_type (f : FileSketch) (c : Scope) (r : ReferenceSketch) :
    (v.referenceEdge f c r).edge.type ≠ .imports := by
  obtain ⟨type, htype, hr⟩ := v.referenceEdge_resolved c f r
  exact hr.sound.type ▸ htype

theorem countP_edges_eq (f : FileSketch) (t : Table) (p : Edge → Bool) :
    (t.resolveFile v f).1.edges.countP p =
      f.imports.countP (fun i => p (v.importEdge f i).edge) +
        (f.references.filter fun r => !r.kind.isEnrichment).countP
          (fun r => p (v.referenceEdge f (scopeOf f) r).edge) := by
  have hperm : (t.resolveFile v f).1.edges.Perm ((v.findings f).map (·.edge)) :=
    List.mergeSort_perm ..
  rw [hperm.countP_eq, List.countP_map, findings, List.countP_append, List.countP_map,
    List.countP_map]
  rfl

/-- Every import has one edge, and so has every reference that is not for enrichment. -/
theorem countP_edges (f : FileSketch) (t : Table) :
    (t.resolveFile v f).1.edges.countP (·.type == .imports) = f.imports.length ∧
      (t.resolveFile v f).1.edges.countP (·.type != .imports) =
        (f.references.filter fun r => !r.kind.isEnrichment).length := by
  constructor
  · rw [countP_edges_eq, List.countP_eq_length.2 fun i _ => beq_iff_eq.2 (v.importEdge_type f i),
      List.countP_eq_zero.2 fun r _ => by simpa using v.referenceEdge_type f _ r, Nat.add_zero]
  · rw [countP_edges_eq, List.countP_eq_zero.2 fun i _ => by simp [v.importEdge_type f i],
      List.countP_eq_length.2 fun r _ => by simpa using v.referenceEdge_type f _ r, Nat.zero_add]

/-- A finding of resolution or of a standard plugin asks for a placeholder of this name. -/
def Asks (settings : EnrichmentSettings) (f : FileSketch) (fqn : String) : Prop :=
  ∃ found, (found ∈ v.findings f ∨ ∃ plugin ∈ Plugin.standard, ∃ l,
    (plugin.analyzeFile settings v f).outcome = .done l ∧ found ∈ l) ∧
      ∃ x, found.placeholder = some x ∧ x.fqn = fqn

end View

/-- The edge belongs to the file, starts at a symbol of the file, and leads to a symbol that the table
knows. -/
structure FileSketch.MayOwn (f : FileSketch) (t : Table) (e : Edge) : Prop where
  owner : e.owner = f.path
  source : f.Defines e.source
  target : (findId? t e.target).isSome = true

theorem FileSketch.MayOwn.admits {f : FileSketch} {t : Table} {e : Edge} (h : f.MayOwn t e) :
    e.owner = f.path ∧ t.ids.contains e.target = true := by
  obtain ⟨s, hs⟩ := Option.isSome_iff_exists.1 h.target
  obtain ⟨fqn, hfqn, -⟩ := Option.bind_eq_some_iff.1 hs
  exact ⟨h.owner, contains_of_get? hfqn⟩

namespace Table

variable {t : Table}

/-! ## Storing edges -/

theorem edgesOf_replaceEdges_of_admissible {owner : String} {edges : List Edge}
    (h : t.Admissible owner edges) : ∃ t', t.replaceEdges owner edges = .ok t' ∧
      t'.edgesOf owner = dropRepeats (Edge.sort edges) := by
  obtain ⟨t', hok, hedges⟩ := replaceEdges_of_admissible h
  refine ⟨t', hok, ?_⟩
  rw [edgesOf, hedges]
  exact (edgesOf_setEdges t owner owner _).trans (if_pos rfl)

theorem edgesOf_foldl_appendEdge (owner : String) (l : List Edge) (t : Table) :
    ∃ added, (∀ e ∈ added, e ∈ l) ∧
      (l.foldl (appendEdge owner) t).edgesOf owner = t.edgesOf owner ++ added := by
  induction l generalizing t with
  | nil => exact ⟨[], fun _ he => he, (List.append_nil _).symm⟩
  | cons e rest ih =>
    obtain ⟨added, hmem, hedges⟩ := ih (appendEdge owner t e)
    rw [List.foldl_cons, hedges]
    unfold appendEdge
    dsimp only
    split
    · exact ⟨added, fun x hx => List.mem_cons_of_mem _ (hmem x hx), rfl⟩
    · refine ⟨e :: added, fun x hx => ?_, ?_⟩
      · rcases List.mem_cons.1 hx with rfl | hx
        · exact List.mem_cons_self ..
        · exact List.mem_cons_of_mem _ (hmem x hx)
      · rw [edgesOf_addDependent, edgesOf_setEdges, if_pos rfl, List.append_assoc]
        rfl

/-- Admissible edges are appended, and no edge of the owner is lost. -/
theorem appendEdges_of_admissible {owner : String} {edges : List Edge}
    (h : t.Admissible owner edges) : ∃ t' added, t.appendEdges owner edges = .ok t' ∧
      (∀ e ∈ added, e ∈ edges) ∧ (t'.edgesOf owner).Perm (t.edgesOf owner ++ added) := by
  unfold appendEdges
  rw [admitEdges_eq_ok.2 ⟨h, rfl⟩]
  change ∃ t' added, (if (dropRepeats (Edge.sort edges)).isEmpty = true then _ else _) = _ ∧ _
  split
  · exact ⟨t, [], rfl, nofun, by rw [List.append_nil]⟩
  · obtain ⟨added, hmem, hedges⟩ := edgesOf_foldl_appendEdge owner (dropRepeats (Edge.sort edges)) t
    refine ⟨_, added, rfl, fun e he => mem_sort.1 (mem_of_mem_dropRepeats (hmem e he)), ?_⟩
    rw [edgesOf_setEdges, if_pos rfl, ← hedges]
    exact List.mergeSort_perm ..

/-! ## Learning and storing -/

/-- The operation takes no symbol away. -/
def Operation.KeepsSymbols : Operation → Prop
  | .commit .. | .remove _ | .prune => False
  | _ => True

theorem get?_apply {op : Operation} (hop : op.KeepsSymbols) {fqn : String} {s : Symbol}
    (hs : t.symbols.get? fqn = some s) : (t.apply op).symbols.get? fqn = some s := by
  cases op with
  | commit file symbols | remove file | prune => exact hop.elim
  | external fqn => exact (ensurePlaceholder_taught t _).kept hs
  | placeholder template => exact (ensurePlaceholder_taught t template).kept hs
  | replace owner edges => exact (sameSymbols_replace t owner edges).symbols ▸ hs
  | append owner edges => exact (sameSymbols_append t owner edges).symbols ▸ hs
  | clear owner => exact (clearEdges_rewires t owner).same.symbols ▸ hs
  | report d | takeReports => exact hs

/-- Symbols stay as long as nothing takes them away. -/
theorem get?_foldl_apply {ops : List Operation} (hops : ∀ op ∈ ops, op.KeepsSymbols)
    {fqn : String} {s : Symbol} (hs : t.symbols.get? fqn = some s) :
    (ops.foldl apply t).symbols.get? fqn = some s := by
  induction ops generalizing t with
  | nil => exact hs
  | cons op rest ih =>
    exact ih (fun x hx => hops x (List.mem_cons_of_mem _ hx))
      (get?_apply (hops op (List.mem_cons_self ..)) hs)

end Table

/-- The operations that teach a table what a finding needs. -/
def Finding.operations (f : Finding) : List Table.Operation :=
  f.report.toList.map .report ++ f.placeholder.toList.map .placeholder

theorem Finding.teach_eq (t : Table) (f : Finding) : f.teach t = f.operations.foldl Table.apply t := by
  unfold teach operations
  cases f.report <;> cases f.placeholder <;> rfl

namespace Table

variable {names : Set String} {ops since : List Operation} {l : List Finding}

theorem foldl_teach_after (l : List Finding) (ops : List Operation) :
    l.foldl Finding.teach (after ops) = after (ops ++ l.flatMap Finding.operations) := by
  induction l generalizing ops with
  | nil => rw [List.flatMap_nil, List.append_nil]; rfl
  | cons f rest ih =>
    have hfirst : f.teach (after ops) = after (ops ++ f.operations) := by
      rw [f.teach_eq, after, after, List.foldl_append]
    rw [List.foldl_cons, hfirst, ih, List.flatMap_cons, List.append_assoc]

theorem anchored_foldl_teach_after (l : List Finding) (ops : List Operation) :
    (l.foldl Finding.teach (after ops)).Anchored := by
  rw [foldl_teach_after]
  exact (intact_after _).anchored

theorem mem_operations {op : Operation} (h : op ∈ l.flatMap Finding.operations) :
    (∃ d, op = .report d) ∨ ∃ found ∈ l, ∃ x, found.placeholder = some x ∧ op = .placeholder x := by
  obtain ⟨found, hfound, hop⟩ := List.mem_flatMap.1 h
  rcases List.mem_append.1 hop with hop | hop
  · obtain ⟨d, -, rfl⟩ := List.mem_map.1 hop
    exact .inl ⟨d, rfl⟩
  · obtain ⟨x, hx, rfl⟩ := List.mem_map.1 hop
    exact .inr ⟨found, hfound, x, Option.mem_toList.1 hx, rfl⟩

theorem keepsSymbols_operations (l : List Finding) :
    ∀ op ∈ l.flatMap Finding.operations, op.KeepsSymbols := by
  intro op hop
  obtain ⟨d, rfl⟩ | ⟨found, -, x, -, rfl⟩ := mem_operations hop <;> trivial

theorem usesNames_operations (hl : ∀ found ∈ l, ∀ x, found.placeholder = some x → x.fqn ∈ names) :
    ∀ op ∈ l.flatMap Finding.operations, op.UsesNames names := by
  intro op hop
  obtain ⟨d, rfl⟩ | ⟨found, hfound, x, hx, rfl⟩ := mem_operations hop
  · trivial
  · exact hl found hfound x hx

/-- What a finding leads to is known once the table has learnt the placeholders. -/
theorem contains_target_foldl_teach (hinj : Set.InjOn SymbolId.ofFqn names)
    (hops : ∀ op ∈ ops ++ since, op.UsesNames names) (hsince : ∀ op ∈ since, op.KeepsSymbols)
    (hl : ∀ found ∈ l, ∀ x, found.placeholder = some x → x.fqn ∈ names) {found : Finding}
    (hfound : found ∈ l) (hlands : found.Lands (after ops).snapshot) :
    (l.foldl Finding.teach (after (ops ++ since))).ids.contains found.edge.target = true := by
  have hlisted : Listed names (l.foldl Finding.teach (after (ops ++ since))) := by
    rw [foldl_teach_after]
    refine listed_after hinj fun op hop => ?_
    rcases List.mem_append.1 hop with hop | hop
    · exact hops op hop
    · exact usesNames_operations hl op hop
  rcases hlands with ⟨fqn, x, hx, htarget⟩ | ⟨x, hx, htarget⟩
  · -- a frozen symbol is still there
    have hkept : (after (ops ++ since)).symbols.get? fqn = some x := by
      rw [after, List.foldl_append]
      exact get?_foldl_apply hsince hx
    rw [htarget, ((intact_after ops).anchored.symbol hx).2]
    exact hlisted.ids (contains_of_get? ((foldl_teach_taught l _).kept hkept))
  · rw [htarget]
    exact hlisted.ids (contains_foldl_teach hfound hx _)

theorem Anchored.isSome_findId? {t : Table} (h : t.Anchored) {id : SymbolId}
    (hid : t.ids.contains id = true) : (findId? t id).isSome = true := by
  obtain ⟨fqn, hfqn⟩ := contains_iff.1 hid
  obtain ⟨s, hs⟩ := contains_iff.1 (h.ids hfqn).1
  exact Option.isSome_iff_exists.2 ⟨s, Option.bind_eq_some_iff.2 ⟨fqn, hfqn, hs⟩⟩

/-- The table accepts what a plugin finds in the file, and the file keeps all edges that it had. -/
def TakesFrom (t : Table) (v : View) (settings : EnrichmentSettings) (f : FileSketch)
    (plugin : Plugin) : Prop :=
  ∃ l, (plugin.analyzeFile settings v f).outcome = .done l ∧
    (∀ found ∈ l, f.MayOwn (l.foldl Finding.teach t) found.edge) ∧
    ∃ t' added, (l.foldl Finding.teach t).appendEdges f.path (l.map (·.edge)) = .ok t' ∧
      (∀ e ∈ added, e ∈ l.map (·.edge)) ∧ (t'.edgesOf f.path).Perm (t.edgesOf f.path ++ added)

section Storing

variable {sketches : SortedMap String FileSketch} {f : FileSketch} {settings : EnrichmentSettings}
variable (hinj : Set.InjOn SymbolId.ofFqn names) (hops : ∀ op ∈ ops ++ since, op.UsesNames names)
  (hsince : ∀ op ∈ since, op.KeepsSymbols)
  (hasks : ∀ fqn, View.Asks ⟨(after ops).snapshot, sketches⟩ settings f fqn → fqn ∈ names)

include hinj hops hsince hasks

theorem findings_mayOwn {e : Edge} (he : e ∈ ((after (ops ++ since)).resolveFile
    ⟨(after ops).snapshot, sketches⟩ f).1.edges) : f.MayOwn ((after (ops ++ since)).resolveFile
      ⟨(after ops).snapshot, sketches⟩ f).2 e := by
  obtain ⟨found, hfound, rfl⟩ := List.mem_map.1 (mem_sort.1 he)
  obtain ⟨howner, hsource⟩ := View.findings_starts _ hfound
  obtain ⟨o, -, hr, -⟩ := View.findings_resolved _ hfound
  have hid := contains_target_foldl_teach hinj hops hsince
    (fun y hy x hx => hasks _ ⟨y, .inl hy, x, hx, rfl⟩) hfound hr.sound.lands
  exact ⟨howner, hsource, (anchored_foldl_teach_after _ _).isSome_findId? hid⟩

theorem takesFrom_after {plugin : Plugin} (hp : plugin ∈ Plugin.standard) :
    (after (ops ++ since)).TakesFrom ⟨(after ops).snapshot, sketches⟩ settings f plugin := by
  obtain ⟨l, hl⟩ := Plugin.standard_done hp settings ⟨(after ops).snapshot, sketches⟩ f
  have hmay : ∀ found ∈ l, f.MayOwn (l.foldl Finding.teach (after (ops ++ since))) found.edge := by
    intro found hfound
    obtain ⟨howner, hsource⟩ := Plugin.standard_starts hp hl hfound
    obtain ⟨o, hs, -⟩ := Plugin.standard_sound hp hl hfound
    have hid := contains_target_foldl_teach hinj hops hsince
      (fun y hy x hx => hasks _ ⟨y, .inr ⟨plugin, hp, l, hl, hy⟩, x, hx, rfl⟩) hfound hs.lands
    exact ⟨howner, hsource, (anchored_foldl_teach_after _ _).isSome_findId? hid⟩
  have hadmissible : (l.foldl Finding.teach (after (ops ++ since))).Admissible f.path
      (l.map (·.edge)) := by
    intro e he
    obtain ⟨found, hfound, rfl⟩ := List.mem_map.1 he
    exact (hmay found hfound).admits
  obtain ⟨t', added, hok, hadded, hperm⟩ := appendEdges_of_admissible hadmissible
  rw [(foldl_teach_taught l _).edges.edgesOf] at hperm
  exact ⟨l, hl, hmay, t', added, hok, hadded, hperm⟩

end Storing

/-- Every reference becomes one edge that can be stored, if no separator is empty. A file is resolved
against the frozen symbols of a table, which has learnt placeholders and stored edges since. Every
walk outwards from a definition returns, so resolution does. Each import of the file has one edge,
and so has each reference that is not for enrichment. An edge belongs to the file, starts at a symbol
of the file and leads to a symbol that the table knows, so that the table accepts them all. From then
on, as long as no symbols are taken away, it accepts what any standard plugin finds in the file, and
the file keeps all edges that it had. -/
theorem references_become_edges (hinj : Set.InjOn SymbolId.ofFqn names)
    (hops : ∀ op ∈ ops ++ since, op.UsesNames names) (hsince : ∀ op ∈ since, op.KeepsSymbols)
    (sketches : SortedMap String FileSketch)
    (hsep : ∀ path g, sketches.get? path = some g → g.separator ≠ "") (f : FileSketch)
    (hfile : f.separator ≠ "") (settings : EnrichmentSettings)
    (hasks : ∀ fqn, View.Asks ⟨(after ops).snapshot, sketches⟩ settings f fqn → fqn ∈ names) :
    let v : View := ⟨(after ops).snapshot, sketches⟩
    let (resolution, t) := (after (ops ++ since)).resolveFile v f
    (∀ g, g = f ∨ (∃ path, sketches.get? path = some g) → ∀ relative,
        (Scope.enclosing? g relative {}).isSome = true) ∧
      resolution.edges.countP (·.type == .imports) = f.imports.length ∧
      resolution.edges.countP (·.type != .imports) =
        (f.references.filter fun r => !r.kind.isEnrichment).length ∧
      (∀ e ∈ resolution.edges, f.MayOwn t e) ∧
      ∃ t', t.replaceEdges f.path resolution.edges = .ok t' ∧
        t'.edgesOf f.path = dropRepeats (Edge.sort resolution.edges) ∧
        ∀ later : List Operation, (∀ op ∈ later, op.UsesNames names ∧ op.KeepsSymbols) →
          ∀ plugin ∈ Plugin.standard, (later.foldl apply t').TakesFrom v settings f plugin := by
  intro v
  have hwalks : ∀ g, g = f ∨ (∃ path, sketches.get? path = some g) → ∀ relative,
      (Scope.enclosing? g relative {}).isSome = true := by
    rintro g (rfl | ⟨path, hg⟩) relative
    · exact Scope.enclosing?_isSome hfile relative {}
    · exact Scope.enclosing?_isSome (hsep path g hg) relative {}
  have hmay : ∀ e ∈ ((after (ops ++ since)).resolveFile v f).1.edges,
      f.MayOwn ((after (ops ++ since)).resolveFile v f).2 e := fun e he =>
    findings_mayOwn hinj hops hsince hasks he
  obtain ⟨t', hok, hedges⟩ := edgesOf_replaceEdges_of_admissible fun e he => (hmay e he).admits
  refine ⟨hwalks, (v.countP_edges f _).1, (v.countP_edges f _).2, hmay, t', hok, hedges, ?_⟩
  intro later hlater plugin hp
  -- what the file taught the table and the edges it stored are operations like the others
  let learnt := (v.findings f).flatMap Finding.operations
  let store := Operation.replace f.path ((after (ops ++ since)).resolveFile v f).1.edges
  have hstored : later.foldl apply t' = after (ops ++ (since ++ (learnt ++ store :: later))) := by
    have hlearnt : after (ops ++ since ++ learnt) = ((after (ops ++ since)).resolveFile v f).2 :=
      (foldl_teach_after _ _).symm
    have hstore : (after (ops ++ since ++ learnt)).apply store = t' := by
      rw [hlearnt]
      change (Except.toOption (replaceEdges _ _ _)).getD _ = t'
      rw [hok]
      rfl
    rw [← List.append_assoc, ← List.append_assoc, after, List.foldl_append, List.foldl_cons]
    exact congrArg (later.foldl apply) hstore.symm
  have hnew : ∀ op ∈ learnt ++ store :: later, op.UsesNames names ∧ op.KeepsSymbols := by
    intro op hop
    rcases List.mem_append.1 hop with hop | hop
    · exact ⟨usesNames_operations (fun y hy x hx => hasks _ ⟨y, .inl hy, x, hx, rfl⟩) op hop,
        keepsSymbols_operations _ op hop⟩
    · rcases List.mem_cons.1 hop with rfl | hop
      · exact ⟨trivial, trivial⟩
      · exact hlater op hop
  rw [hstored]
  refine takesFrom_after hinj (fun op hop => ?_) (fun op hop => ?_) hasks hp
  · rw [← List.append_assoc] at hop
    exact (List.mem_append.1 hop).elim (hops op) fun hop => (hnew op hop).1
  · exact (List.mem_append.1 hop).elim (hsince op) fun hop => (hnew op hop).2

/-- A file that imports another one, with a class that extends one and a method that emits an
event. -/
def emitting : FileSketch where
  path := "main.go"
  language := "go"
  separator := "."
  symbols := [{ name := "Main", kind := .classType, line := 2, column := 1 },
    { name := "run", parent := some "Main", kind := .method, line := 3, column := 1 }]
  imports := [{ target := "fmt", localName := none, wildcard := false, line := 1 }]
  references := [
    { kind := .extendsType, target := .name "Base", source := some "Main", line := 2, column := 1 },
    { kind := .eventEmit, target := .name "saved", source := some "Main.run", line := 4, column := 1 }]

/-- The names of the file and of what it refers to. -/
def emittingNames : List String := ["main.go", "Main", "Main.run", "fmt", "Base", "event:saved"]

/-- The symbols of the file alone. -/
def emittingView : View :=
  ⟨(after [.commit "main.go" emitting.assembleSymbols]).snapshot,
    (∅ : SortedMap String FileSketch).insert "main.go" emitting⟩

/-- One edge for the import and one for the class are stored, and then one for the event is appended.
The class has had a placeholder before. -/
theorem references_become_edges_emitting :
    let (resolution, t) := (after [.commit "main.go" emitting.assembleSymbols,
      .external "Base"]).resolveFile emittingView emitting
    (Scope.enclosing? emitting "Main.run" {}).isSome = true ∧
      resolution.edges.countP (·.type == .imports) = 1 ∧
      resolution.edges.countP (·.type != .imports) = 1 ∧
      ∃ t', t.replaceEdges "main.go" resolution.edges = .ok t' ∧
        ∀ plugin ∈ Plugin.standard, t'.TakesFrom emittingView {} emitting plugin := by
  have hsep : ∀ path g, emittingView.sketches.get? path = some g → g.separator ≠ "" := by
    intro path g hg
    rw [emittingView, get?_insert_eq] at hg
    split at hg
    · cases hg
      decide
    · cases hg
  have hinj : Set.InjOn SymbolId.ofFqn {n | n ∈ emittingNames} := by
    have hnodup : (emittingNames.map SymbolId.ofFqn).Nodup := by decide +kernel
    exact fun a ha b hb => List.inj_on_of_nodup_map hnodup ha hb
  have hops : ∀ op ∈ [Operation.commit "main.go" emitting.assembleSymbols] ++ [.external "Base"],
      op.UsesNames {n | n ∈ emittingNames} := by
    have hsymbols : ∀ s ∈ emitting.assembleSymbols, s.fqn ∈ emittingNames ∧ s.moduleName = none := by
      decide +kernel
    intro op hop
    simp only [List.cons_append, List.nil_append, List.mem_cons, List.not_mem_nil, or_false] at hop
    rcases hop with rfl | rfl
    · exact fun s hs => ⟨(hsymbols s hs).1, fun ns hns => by rw [(hsymbols s hs).2] at hns; cases hns⟩
    · change "Base" ∈ emittingNames
      decide
  have hsince : ∀ op ∈ [Operation.external "Base"], op.KeepsSymbols := by
    intro op hop
    rw [List.mem_singleton.1 hop]
    trivial
  have hasks : ∀ fqn, emittingView.Asks {} emitting fqn → fqn ∈ {n | n ∈ emittingNames} := by
    have hfound : ∀ found ∈ emittingView.findings emitting, ∀ x ∈ found.placeholder,
        x.fqn ∈ emittingNames := by decide +kernel
    have hplugins : ∀ plugin ∈ Plugin.standard, ∀ l,
        (plugin.analyzeFile {} emittingView emitting).outcome = .done l →
          ∀ found ∈ l, ∀ x ∈ found.placeholder, x.fqn ∈ emittingNames := by
      intro plugin hp l hl
      simp only [Plugin.standard, List.mem_cons, List.not_mem_nil, or_false] at hp
      rcases hp with rfl | rfl | rfl <;> cases hl <;> decide +kernel
    rintro fqn ⟨found, hfinding | ⟨plugin, hp, l, hl, hmem⟩, x, hx, rfl⟩
    · exact hfound found hfinding x hx
    · exact hplugins plugin hp l hl found hmem x hx
  obtain ⟨hwalks, himports, hreferences, -, t', hok, -, htakes⟩ :=
    references_become_edges hinj hops hsince emittingView.sketches hsep emitting (by decide) {} hasks
  exact ⟨hwalks emitting (.inl rfl) _, himports, hreferences, t', hok, htakes [] nofun⟩

/-- A file without a separator. Its method has no name, so it has the path of its parent, and makes a
call. -/
def nameless : FileSketch where
  path := "main.go"
  language := "go"
  separator := ""
  symbols := [{ name := "", parent := some "x", kind := .method, line := 1, column := 1 }]
  references := [{ kind := .call, target := .name "g", source := some "x", line := 2, column := 1 }]

/-- The table takes the symbols of the file. The call has no edge: the walk outwards from it comes back
to the method again and again. -/
theorem reference_walk_endless :
    (empty.commitFile "main.go" nameless.assembleSymbols).1.isOk = true ∧
      ∀ r ∈ nameless.references, r.kind.isEnrichment = false ∧
        r.source.map (Scope.enclosing? nameless · {}) = some none := by
  decide +kernel

end Table

end CodeAtlas

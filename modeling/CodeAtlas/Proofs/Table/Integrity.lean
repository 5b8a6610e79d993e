import Mathlib
import CodeAtlas.Query.Basic
import CodeAtlas.Proofs.Table.Placeholders
import CodeAtlas.Proofs.Table.Updates

/-!
# Integrity of every reachable table

A table is reached from the empty one by a list of operations with any arguments (`after`). An
operation that is refused keeps the table. Nothing here assumes that different names have different
identifiers: a symbol may take over the identifier of another one, and yet no edge dangles.

Main results:

* `Intact`: the identifiers lead to known names that have them, every edge targets a listed
  identifier, and the counts of edges are exact. `Intact.apply` keeps it along one operation.
* `inconsistency?_after`: a reachable table has no contradiction.
* `dependents_after`: in a reachable table the index of dependents is exact, and so are the answers
  that are read off it.
-/

namespace CodeAtlas

open SortedMap

/-- The symbol has the name under which it stands, and the identifier of that name. -/
def Symbol.StandsFor (s : Symbol) (fqn : String) : Prop := s.fqn = fqn ∧ s.id = .ofFqn fqn

namespace Table

variable {s : Symbol}

/-! ## Operations -/

/-- A change that a client of the table can ask for. -/
inductive Operation where
  | commit (file : String) (symbols : List Symbol)
  | remove (file : String)
  | external (fqn : String)
  | placeholder (template : Symbol)
  | replace (owner : String) (edges : List Edge)
  | append (owner : String) (edges : List Edge)
  | clear (owner : String)
  | prune
  | report (d : Diagnostic)
  | takeReports
  deriving Inhabited

/-- The table after an operation. -/
def apply (t : Table) : Operation → Table
  | .commit file symbols => (t.commitFile file symbols).2
  | .remove file => (t.removeFile file).2
  | .external fqn => (t.ensureExternal fqn).2
  | .placeholder template => (t.ensurePlaceholder template).2
  | .replace owner edges => (t.replaceEdges owner edges).toOption.getD t
  | .append owner edges => (t.appendEdges owner edges).toOption.getD t
  | .clear owner => t.clearEdges owner
  | .prune => t.pruneExternals.2
  | .report d => t.record d
  | .takeReports => t.takeDiagnostics.2

/-- Storing edges leaves the symbols alone, whether they are accepted or not. -/
theorem sameSymbols_replace (t : Table) (owner : String) (edges : List Edge) :
    SameSymbols t (t.apply (.replace owner edges)) := by
  change SameSymbols t ((t.replaceEdges owner edges).toOption.getD t)
  cases hr : t.replaceEdges owner edges with
  | error e => exact .refl t
  | ok t' => exact (replaceEdges_rewires hr).2.same

theorem sameSymbols_append (t : Table) (owner : String) (edges : List Edge) :
    SameSymbols t (t.apply (.append owner edges)) := by
  change SameSymbols t ((t.appendEdges owner edges).toOption.getD t)
  cases hr : t.appendEdges owner edges with
  | error e => exact .refl t
  | ok t' =>
    obtain ⟨-, _, hrewires, -⟩ := appendEdges_rewires hr
    exact hrewires.same

/-- The table that a list of operations makes of the empty one. -/
def after (ops : List Operation) : Table := ops.foldl apply .empty

/-- What holds of the empty table and is kept by every operation holds of every reachable table. -/
theorem after_induct {P : Table → Prop} (hempty : P .empty) (hstep : ∀ t op, P t → P (t.apply op))
    (ops : List Operation) : P (after ops) := by
  have hrun : ∀ (l : List Operation) (t : Table), P t → P (l.foldl apply t) := by
    intro l
    induction l with
    | nil => exact fun t h => h
    | cons op rest ih => exact fun t h => ih _ (hstep t op h)
  exact hrun ops .empty hempty

theorem after_append (ops : List Operation) (op : Operation) :
    after (ops ++ [op]) = (after ops).apply op := by
  rw [after, List.foldl_append]
  rfl

variable {t t' : Table} {fqn file owner : String} {id : SymbolId}

/-! ## Identifiers lead to known names -/

/-- Symbols stand under their own names, and every identifier leads to a known name that has it. -/
structure Anchored (t : Table) : Prop where
  symbol : ∀ {fqn s}, t.symbols.get? fqn = some s → s.StandsFor fqn
  hidden : ∀ {fqn s}, s ∈ t.shadowed.getD fqn [] → s.StandsFor fqn
  ids : ∀ {id fqn}, t.ids.get? id = some fqn →
    t.symbols.contains fqn = true ∧ SymbolId.ofFqn fqn = id

theorem anchored_empty : Anchored .empty where
  symbol h := by cases h
  hidden h := by cases h
  ids h := by cases h

section

variable (h : Anchored t)

include h

theorem Anchored.of_same (hs : SameSymbols t t') : Anchored t' where
  symbol hg := h.symbol (hs.symbols ▸ hg)
  hidden hg := h.hidden (hs.shadowed ▸ hg)
  ids hg := hs.symbols ▸ h.ids (hs.ids ▸ hg)

/-- A symbol is put under its name. -/
theorem Anchored.put (hs : s.StandsFor fqn)
    (hsym : ∀ g, t'.symbols.get? g = if g = fqn then some s else t.symbols.get? g)
    (hhidden : ∀ {g x}, x ∈ t'.shadowed.getD g [] → x.StandsFor g)
    (hids : t'.ids = t.ids ∨ t'.ids = t.ids.insert (.ofFqn fqn) fqn) : Anchored t' := by
  have hown : t'.symbols.contains fqn = true := contains_of_get? ((hsym fqn).trans (if_pos rfl))
  have hold : ∀ {id g}, t.ids.get? id = some g →
      t'.symbols.contains g = true ∧ SymbolId.ofFqn g = id := by
    intro id g hg
    obtain ⟨hc, hid⟩ := h.ids hg
    refine ⟨?_, hid⟩
    by_cases hgf : g = fqn
    · rw [hgf]
      exact hown
    · rw [contains, hsym, if_neg hgf]
      exact hc
  refine ⟨fun {g x} hg => ?_, hhidden, fun {id g} hg => ?_⟩
  · rw [hsym] at hg
    split at hg
    · next hgf =>
      cases hg
      rw [hgf]
      exact hs
    · exact h.symbol hg
  · rcases hids with hids | hids
    · exact hold (hids ▸ hg)
    · rw [hids, get?_insert_eq] at hg
      split at hg
      · next hid =>
        cases hg
        exact ⟨hown, hid.symm⟩
      · exact hold hg

/-- A name is forgotten together with its identifier. -/
theorem Anchored.take (hsym : ∀ g, t'.symbols.get? g = if g = fqn then none else t.symbols.get? g)
    (hhidden : ∀ {g x}, x ∈ t'.shadowed.getD g [] → x.StandsFor g)
    (hids : t'.ids = t.ids.erase (.ofFqn fqn)) : Anchored t' := by
  refine ⟨fun {g x} hg => ?_, hhidden, fun {id g} hg => ?_⟩
  · rw [hsym] at hg
    split at hg
    · cases hg
    · exact h.symbol hg
  · rw [hids, get?_erase_eq] at hg
    split at hg
    · cases hg
    · next hid =>
      obtain ⟨hc, rfl⟩ := h.ids hg
      have hgf : g ≠ fqn := fun he => hid (congrArg _ he)
      refine ⟨?_, rfl⟩
      rw [contains, hsym, if_neg hgf]
      exact hc

theorem Anchored.purged (fqn file : String) {g : String}
    (hs : s ∈ (t.purgeShadowed fqn file).shadowed.getD g []) : s.StandsFor g := by
  rw [purgeShadowed, getD_setShadowed] at hs
  split at hs
  · next hg =>
    rw [hg]
    exact h.hidden (List.mem_filter.1 hs).1
  · exact h.hidden hs

omit h in
theorem contains_ids_erase (h : t.ids.contains id = true) (dead : SymbolId) :
    (t.ids.erase dead).contains id = true ∨ id = dead := by
  rw [contains_erase]
  by_cases hid : id = dead
  · exact .inr hid
  · simp [hid, h]

/-! ## Each operation on symbols keeps identifiers anchored -/

theorem withdraw_anchored (fqn file : String) :
    Anchored (t.withdraw fqn file).2 ∧ SameEdges t (t.withdraw fqn file).2 ∧
      ∀ {id}, t.ids.contains id = true →
        (t.withdraw fqn file).2.ids.contains id = true ∨ (t.withdraw fqn file).1 = .gone id := by
  have hpurged : ∀ {g s}, s ∈ (t.purgeShadowed fqn file).shadowed.getD g [] → s.StandsFor g :=
    fun hs => h.purged fqn file hs
  rcases Cell.withdraw_cases file none (t.cell fqn) with
    ⟨-, hs⟩ | ⟨s, hs, hfile, hext, ⟨previous, rest, hr, -⟩ | ⟨hr, -⟩⟩
  · rw [withdraw_of_kept hs]
    exact ⟨⟨h.symbol, hpurged, h.ids⟩, ⟨rfl, rfl⟩, .inl⟩
  · have hmem : ∀ x ∈ previous :: rest, x.StandsFor fqn := fun x hx =>
      h.hidden (List.mem_filter.1 (hr ▸ hx)).1
    rw [withdraw_of_hidden hs hfile hext hr]
    refine ⟨h.put (hmem previous (List.mem_cons_self ..)) (get?_insert_eq t.symbols fqn · _)
      (fun {g x} hx => ?_) (.inl rfl), ⟨rfl, rfl⟩, .inl⟩
    rcases (getD_setShadowed _ fqn g rest) ▸ hx with hx'
    split at hx'
    · next hg =>
      rw [hg]
      exact hmem x (List.mem_cons_of_mem _ hx')
    · exact hpurged hx'
  · have hsid : s.id = .ofFqn fqn := (h.symbol hs).2
    rw [withdraw_of_last hs hfile hext hr]
    by_cases hm : t.modules.contains fqn = true
    · simp only [hm, if_true]
      refine ⟨h.put (s := moduleSymbol fqn) ⟨rfl, rfl⟩ (fun g => ?_) hpurged (.inr rfl),
        ⟨rfl, rfl⟩, fun hc => .inl ?_⟩
      · refine (get?_insert_eq _ fqn g _).trans (ite_congr rfl (fun _ => rfl) fun hg => ?_)
        exact (get?_erase_eq t.symbols fqn g).trans (if_neg hg)
      · exact (contains_insert t.ids ..).trans (by simp [hc])
    · simp only [hm]
      refine ⟨h.take (get?_erase_eq t.symbols fqn) hpurged (congrArg t.ids.erase hsid), ⟨rfl, rfl⟩,
        fun hc => ?_⟩
      exact (contains_ids_erase hc s.id).imp_right fun he => congrArg Withdrawal.gone he.symm

theorem releaseModule_anchored (ns file : String) :
    Anchored (t.releaseModule ns file).2 ∧ SameEdges t (t.releaseModule ns file).2 ∧
      ∀ {id}, t.ids.contains id = true →
        (t.releaseModule ns file).2.ids.contains id = true ∨
          (t.releaseModule ns file).1 = some id := by
  have hkeep : ∀ modules, Anchored { t with modules } ∧ SameEdges t { t with modules } ∧
      ∀ {id}, t.ids.contains id = true →
        ({ t with modules } : Table).ids.contains id = true ∨ (none : Option SymbolId) = some id :=
    fun modules => ⟨⟨h.symbol, h.hidden, h.ids⟩, ⟨rfl, rfl⟩, .inl⟩
  unfold releaseModule
  split
  · exact hkeep t.modules
  · dsimp only
    split
    · split
      · next s hs =>
        have hsid : s.id = .ofFqn ns := (h.symbol hs).2
        split
        · refine ⟨h.take (get?_erase_eq t.symbols ns) h.hidden (congrArg t.ids.erase hsid),
            ⟨rfl, rfl⟩, fun hc => ?_⟩
          exact (contains_ids_erase hc s.id).imp_right fun he => congrArg some he.symm
        · exact hkeep _
      · exact hkeep _
    · exact hkeep _

theorem insertNew_anchored (hs : s.StandsFor s.fqn) :
    Anchored (t.insertNew s) ∧ ∀ {id}, t.ids.contains id = true →
      (t.insertNew s).ids.contains id = true := by
  refine ⟨h.put hs (get?_insert_eq t.symbols s.fqn · _) h.hidden (.inr ?_), fun hc => ?_⟩
  · exact congrArg (t.ids.insert · s.fqn) hs.2
  · exact (contains_insert t.ids ..).trans (by simp [hc])

theorem acquireModule_anchored (ns file : String) :
    Anchored (t.acquireModule ns file) ∧ SameEdges t (t.acquireModule ns file) ∧
      ∀ {id}, t.ids.contains id = true → (t.acquireModule ns file).ids.contains id = true := by
  have hmod : ∀ modules, Anchored { t with modules } := fun _ => ⟨h.symbol, h.hidden, h.ids⟩
  unfold acquireModule
  dsimp only
  split
  · exact ⟨hmod _, ⟨rfl, rfl⟩, id⟩
  · obtain ⟨hnew, hids⟩ := insertNew_anchored (hmod _) (s := moduleSymbol ns) ⟨rfl, rfl⟩
    exact ⟨hnew, ⟨rfl, rfl⟩, hids⟩

theorem ensurePlaceholder_anchored (template : Symbol) :
    Anchored (t.ensurePlaceholder template).2 ∧ SameEdges t (t.ensurePlaceholder template).2 ∧
      ∀ {id}, t.ids.contains id = true →
        (t.ensurePlaceholder template).2.ids.contains id = true := by
  unfold ensurePlaceholder
  split
  · exact ⟨h, .refl t, id⟩
  · obtain ⟨hnew, hids⟩ := insertNew_anchored h (s := placeholderOf template) ⟨rfl, rfl⟩
    exact ⟨hnew, ⟨rfl, rfl⟩, hids⟩

end

theorem commitSymbol_anchored {a : CommitSummary × Table} (h : Anchored a.2)
    (hs : s.StandsFor s.fqn) (file : String) :
    Anchored (commitSymbol file a s).2 ∧ SameEdges a.2 (commitSymbol file a s).2 ∧
      ∀ {id}, a.2.ids.contains id = true → (commitSymbol file a s).2.ids.contains id = true := by
  obtain ⟨hsym, hids, -, -, hedges⟩ := insertSymbol_fields (a.2.purgeShadowed s.fqn file) s
  change Anchored ((a.2.purgeShadowed s.fqn file).insertSymbol s).2 ∧
    SameEdges a.2 ((a.2.purgeShadowed s.fqn file).insertSymbol s).2 ∧
    ∀ {id}, a.2.ids.contains id = true →
      ((a.2.purgeShadowed s.fqn file).insertSymbol s).2.ids.contains id = true
  refine ⟨h.put hs (fun g => ?_) (fun {g x} hx => ?_) (.inr ?_), ⟨hedges.edges, hedges.dependents⟩,
    fun hc => ?_⟩
  · rw [hsym]
    exact get?_insert_eq a.2.symbols s.fqn g s
  · rw [getD_shadowed_insertSymbol] at hx
    split at hx
    · next hg =>
      rw [hg]
      rcases List.mem_append.1 hx with hx | hx
      · exact h.symbol (Option.mem_toList.1 (List.mem_filter.1 hx).1)
      · exact h.purged s.fqn file hx
    · exact h.purged s.fqn file hx
  · exact hids.trans (by rw [hs.2]; rfl)
  · rw [hids, contains_insert]
    exact Bool.or_eq_true_iff.2 (.inr hc)

/-! ## Commits and removals -/

/-- What a running withdrawal owes the table `t₀` that it started from: an identifier that is no
longer listed is listed as removed. -/
structure Accounts (t₀ : Table) (w : Withdrawn) : Prop where
  anchored : Anchored w.table
  edges : SameEdges t₀ w.table
  ids : ∀ {id}, t₀.ids.contains id = true →
    w.table.ids.contains id = true ∨ w.removed.contains id = true

namespace Accounts

variable {t₀ : Table} {w : Withdrawn}

section

variable (h : Accounts t₀ w)

include h

/-- A name that is given up may be gone with its identifier. -/
theorem lose {dead : SymbolId} {t' : Table}
    (hids : ∀ {id}, w.table.ids.contains id = true → t'.ids.contains id = true ∨ dead = id)
    {id : SymbolId} (hc : t₀.ids.contains id = true) :
    t'.ids.contains id = true ∨ (w.removed.insert dead ()).contains id = true := by
  rw [contains_insert]
  rcases h.ids hc with hc | hc
  · exact (hids hc).imp_right fun he => by simp [he]
  · simp [hc]

theorem step (file fqn : String) : Accounts t₀ (w.step file fqn) := by
  obtain ⟨hanchored, hedges, hids⟩ := withdraw_anchored h.anchored fqn file
  unfold Withdrawn.step
  rcases hw : w.table.withdraw fqn file with ⟨_ | _ | _, t'⟩ <;> rw [hw] at hanchored hedges hids
  · exact ⟨hanchored, h.edges.trans hedges,
      h.lose fun hc => (hids hc).imp_right fun he => by cases he; rfl⟩
  all_goals
    refine ⟨hanchored, h.edges.trans hedges, fun {id} hc => (h.ids hc).imp_left fun hc => ?_⟩
    exact (hids hc).resolve_right nofun

theorem withdrawAll (file : String) (fqns : List String) :
    Accounts t₀ (fqns.foldl (Withdrawn.step file) w) := by
  induction fqns generalizing w with
  | nil => exact h
  | cons fqn rest ih => exact ih (h.step file fqn)

theorem release (ns file : String) : Accounts t₀ (w.release ns file) := by
  obtain ⟨hanchored, hedges, hids⟩ := releaseModule_anchored h.anchored ns file
  unfold Withdrawn.release
  rcases hw : w.table.releaseModule ns file with ⟨_ | dead, t'⟩ <;> rw [hw] at hanchored hedges hids
  · refine ⟨hanchored, h.edges.trans hedges, fun {id} hc => (h.ids hc).imp_left fun hc => ?_⟩
    exact (hids hc).resolve_right nofun
  · exact ⟨hanchored, h.edges.trans hedges,
      h.lose fun hc => (hids hc).imp_right fun he => by cases he; rfl⟩

theorem declare (file : String) (old ns : Option String) : Accounts t₀ (w.declare file old ns) := by
  have hacquire : ∀ {w}, Accounts t₀ w → ∀ n,
      Accounts t₀ { w with table := w.table.acquireModule n file } := by
    intro w h n
    obtain ⟨hanchored, hedges, hids⟩ := acquireModule_anchored h.anchored n file
    exact ⟨hanchored, h.edges.trans hedges, fun hc => (h.ids hc).imp_left hids⟩
  exact declare_induct h (fun _ h => h.release _ file) fun _ h => hacquire h _

end

end Accounts

theorem Anchored.madeWay (h : Anchored t) (file : String) (symbols : List Symbol) :
    Accounts t (t.madeWay file symbols) := by
  have hstart : Accounts t { table := t } := ⟨h, .refl t, .inl⟩
  exact (hstart.withdrawAll file _).declare file _ _

theorem Anchored.goneWith (h : Anchored t) (file : String) : Accounts t (t.goneWith file) :=
  goneWith_induct ⟨⟨h.symbol, h.hidden, h.ids⟩, ⟨rfl, rfl⟩, .inl⟩
    (fun _ hw => hw.withdrawAll file _) fun _ _ hw => hw.release _ file

/-- No edge dangles, and the counts that lead to the edges of a symbol are exact. -/
structure Intact (t : Table) : Prop where
  anchored : Anchored t
  counted : Counted t
  targets : ∀ {owner e}, e ∈ t.edgesOf owner → t.ids.contains e.target = true

namespace Intact

variable {edges : List Edge}

theorem of_sameGraph (h : Intact t) (hs : SameGraph t t') : Intact t' :=
  ⟨h.anchored.of_same hs.symbols, h.counted.of_same hs.edges, fun he =>
    hs.symbols.ids ▸ h.targets (hs.edges.edgesOf _ ▸ he)⟩

/-- Edges that the dropping leaves lead to identifiers that were kept. -/
theorem cascade (removed : IdSet) (file : String) (hanchored : Anchored t) (hcounted : Counted t)
    (htargets : ∀ {owner e}, e ∈ t.edgesOf owner →
      t.ids.contains e.target = true ∨ removed.contains e.target = true) :
    Intact (t.cascade removed file).2 := by
  obtain ⟨hsame, hcounted', hedges, -⟩ := cascade_spec hcounted removed file
  refine ⟨hanchored.of_same hsame, hcounted', fun {o e} he => ?_⟩
  rw [hedges, List.mem_filter] at he
  rw [hsame.ids]
  exact (htargets he.1).resolve_right (by simpa using he.2)

theorem foldl_commitSymbol (symbols : List Symbol) (file : String) {a : CommitSummary × Table}
    (h : Anchored a.2) (hs : ∀ s ∈ symbols, s.StandsFor s.fqn) :
    Anchored (symbols.foldl (commitSymbol file) a).2 ∧
      SameEdges a.2 (symbols.foldl (commitSymbol file) a).2 ∧
      ∀ {id}, a.2.ids.contains id = true →
        (symbols.foldl (commitSymbol file) a).2.ids.contains id = true := by
  induction symbols generalizing a with
  | nil => exact ⟨h, .refl _, id⟩
  | cons s rest ih =>
    obtain ⟨hanchored, hedges, hids⟩ := commitSymbol_anchored h (hs s (List.mem_cons_self ..)) file
    obtain ⟨hanchored', hedges', hids'⟩ := ih hanchored fun x hx => hs x (List.mem_cons_of_mem _ hx)
    exact ⟨hanchored', hedges.trans hedges', fun hc => hids' (hids hc)⟩

section

variable (h : Intact t)

include h

theorem commitAdmitted (file : String) {symbols : List Symbol}
    (hs : ∀ s ∈ symbols, s.StandsFor s.fqn) : Intact (t.commitAdmitted file symbols).2 := by
  have haccounts := h.anchored.madeWay file symbols
  set w := t.madeWay file symbols
  set t₁ := t.stored file symbols
  obtain ⟨hanchored, hedges, hids⟩ := foldl_commitSymbol symbols file
    (a := ({}, w.table)) haccounts.anchored hs
  have hsame : SameEdges t t₁ := haccounts.edges.trans hedges
  refine cascade (t := { t₁ with files := t₁.files.insert file ⟨symbols.map (·.fqn),
      declaredModule? symbols⟩ }) w.removed file
    ⟨hanchored.symbol, hanchored.hidden, hanchored.ids⟩
    (h.counted.of_same ⟨hsame.edges, hsame.dependents⟩) fun {o e} he => ?_
  have hold : e ∈ t.edgesOf o := hsame.edgesOf o ▸ he
  exact (haccounts.ids (h.targets hold)).imp_left hids

theorem commitFile (file : String) (symbols : List Symbol) :
    Intact (t.commitFile file symbols).2 := by
  rcases hc : t.commitFile file symbols with ⟨_ | summary, t'⟩
  · exact h.of_sameGraph (commitFile_eq_error hc)
  · obtain ⟨admitted, reports, hadm, heq⟩ := commitFile_eq_ok hc
    have hnew := (h.of_sameGraph (.setDiagnostics t (t.diagnostics ++ reports))).commitAdmitted
      file fun s hs => ⟨rfl, (admitted_spec hadm hs).2.1⟩
    rwa [heq] at hnew

theorem removeFile (file : String) : Intact (t.removeFile file).2 := by
  have haccounts := h.anchored.goneWith file
  rw [removeFile_eq]
  set w := t.goneWith file
  have hclear := clearEdges_rewires w.table file
  refine cascade w.removed file (haccounts.anchored.of_same hclear.same)
    (hclear.counted (h.counted.of_same haccounts.edges)) fun {o e} he => ?_
  rw [hclear.edgesOf] at he
  split at he
  · cases he
  · have hold : e ∈ t.edgesOf o := haccounts.edges.edgesOf o ▸ he
    rw [hclear.same.ids]
    exact haccounts.ids (h.targets hold)

/-! ## Placeholders and edges -/

theorem ensurePlaceholder (template : Symbol) : Intact (t.ensurePlaceholder template).2 := by
  obtain ⟨hanchored, hedges, hids⟩ := ensurePlaceholder_anchored h.anchored template
  exact ⟨hanchored, h.counted.of_same hedges, fun he => hids (h.targets (hedges.edgesOf _ ▸ he))⟩

omit h in
theorem foldl_dropSymbol (l : List Symbol) (h : Anchored t)
    (hl : ∀ s ∈ l, s.id = .ofFqn s.fqn) : Anchored (l.foldl dropSymbol t) := by
  induction l generalizing t with
  | nil => exact h
  | cons s rest ih =>
    refine ih (h.take (get?_erase_eq t.symbols s.fqn) h.hidden ?_) fun x hx =>
      hl x (List.mem_cons_of_mem _ hx)
    exact congrArg t.ids.erase (hl s (List.mem_cons_self ..))

theorem pruneExternals : Intact t.pruneExternals.2 := by
  have hanchored : Anchored t.pruneExternals.2 := by
    refine foldl_dropSymbol _ h.anchored fun s hs => ?_
    obtain ⟨g, hg, -⟩ := mem_orphans.1 hs
    obtain ⟨rfl, hid⟩ := h.anchored.symbol hg
    exact hid
  obtain ⟨hedges, -, -, -, -, hids⟩ := Table.foldl_dropSymbol (t.allSymbols.filter t.isOrphan) t
  refine ⟨hanchored, h.counted.of_same hedges, fun {o e} he => ?_⟩
  have hold : e ∈ t.edgesOf o := hedges.edgesOf o ▸ he
  -- an identifier that an edge targets is not the one of an orphan
  have hno : e.target ∉ (t.allSymbols.filter t.isOrphan).map (·.id) := by
    rw [List.mem_map]
    rintro ⟨s, hs, hid⟩
    obtain ⟨g, -, ho⟩ := mem_orphans.1 hs
    have hdep := h.counted.contains_dependents.2 ⟨o, e, hold, rfl⟩
    rw [← hid] at hdep
    simp [isOrphan, hdep] at ho
  have hget := (hids e.target).trans (if_neg hno)
  exact (congrArg Option.isSome hget).trans (h.targets hold)

theorem rewires (hr : Rewires owner edges t t')
    (hedges : ∀ e ∈ edges, t.ids.contains e.target = true) : Intact t' := by
  refine ⟨h.anchored.of_same hr.same, hr.counted h.counted, fun {o e} he => ?_⟩
  rw [hr.same.ids]
  rw [hr.edgesOf] at he
  split at he
  · exact hedges e he
  · exact h.targets he

theorem replaceEdges (hok : t.replaceEdges owner edges = .ok t') : Intact t' := by
  obtain ⟨hadm, hr⟩ := replaceEdges_rewires hok
  exact h.rewires hr fun e he => (hadm e (mem_sort.1 (mem_of_mem_dropRepeats he))).2

theorem appendEdges (hok : t.appendEdges owner edges = .ok t') : Intact t' := by
  obtain ⟨hadm, edges', hr, hmem⟩ := appendEdges_rewires hok
  refine h.rewires hr fun e he => ?_
  rcases hmem e he with he | he
  · exact h.targets he
  · exact (hadm e he).2

/-- An operation keeps a table intact, whatever its arguments are. -/
theorem apply (op : Operation) : Intact (t.apply op) := by
  cases op with
  | commit file symbols => exact h.commitFile file symbols
  | remove file => exact h.removeFile file
  | external fqn => exact h.ensurePlaceholder _
  | placeholder template => exact h.ensurePlaceholder template
  | replace owner edges =>
    change Intact ((t.replaceEdges owner edges).toOption.getD t)
    cases hr : t.replaceEdges owner edges with
    | error e => exact h
    | ok t' => exact h.replaceEdges hr
  | append owner edges =>
    change Intact ((t.appendEdges owner edges).toOption.getD t)
    cases hr : t.appendEdges owner edges with
    | error e => exact h
    | ok t' => exact h.appendEdges hr
  | clear owner => exact h.rewires (clearEdges_rewires t owner) (by simp)
  | prune => exact h.pruneExternals
  | report d => exact h.of_sameGraph (.record t d)
  | takeReports => exact h.of_sameGraph (.setDiagnostics t [])

end

end Intact

theorem intact_after (ops : List Operation) : Intact (after ops) :=
  after_induct ⟨anchored_empty, counted_empty, fun he => by cases he⟩ (fun _ op h => h.apply op) ops

/-- A table has no contradiction exactly if every edge targets a listed identifier and every listed
identifier leads to a known name. -/
theorem inconsistency?_eq_none_iff : t.inconsistency? = none ↔
      (∀ owner, ∀ e ∈ t.edgesOf owner, t.ids.contains e.target = true) ∧
        ∀ id fqn, t.ids.get? id = some fqn → t.symbols.contains fqn = true := by
  simp only [inconsistency?, Option.or_eq_none_iff, List.findSome?_eq_none_iff, Option.map_eq_none_iff,
    List.find?_eq_none, Prod.forall, mem_entries_iff, Bool.not_eq_true', Bool.not_eq_false]
  refine and_congr_left fun _ => ⟨fun h owner e he => ?_, fun h owner edges ho e he => ?_⟩
  · cases ho : t.edges.get? owner with
    | none =>
      rw [edgesOf, getD_of_none ho] at he
      cases he
    | some edges =>
      rw [edgesOf, getD_of_get? ho] at he
      exact h owner edges ho e he
  · refine h owner e ?_
    rwa [edgesOf, getD_of_get? ho]

/-- No operation, accepted or refused, leaves an edge to an unlisted identifier or an identifier of
an unknown name. -/
theorem inconsistency?_after (ops : List Operation) : (after ops).inconsistency? = none ∧
      (∀ owner, ∀ e ∈ (after ops).edgesOf owner, (after ops).ids.contains e.target = true) ∧
      ∀ id fqn, (after ops).ids.get? id = some fqn → (after ops).symbols.contains fqn = true := by
  have h := intact_after ops
  have hparts : (∀ owner, ∀ e ∈ (after ops).edgesOf owner, (after ops).ids.contains e.target = true) ∧
      ∀ id fqn, (after ops).ids.get? id = some fqn → (after ops).symbols.contains fqn = true :=
    ⟨fun _ _ he => h.targets he, fun _ _ hg => (h.anchored.ids hg).1⟩
  exact ⟨inconsistency?_eq_none_iff.2 hparts, hparts⟩

/-! ## What the index of dependents answers -/

/-- The edges to a symbol, counted owner by owner. -/
theorem length_edges_to (t : Table) (id : SymbolId) :
    (t.allEdges.filter fun e => e.target == id).length =
      (t.edges.keys.map fun owner => (t.targetsOf owner).count id).sum := by
  rw [allEdges, values_eq_map_getD t.edges [], ← List.countP_eq_length_filter,
    List.countP_flatten, List.map_map]
  congr 1
  refine List.map_congr_left fun owner _ => ?_
  rw [targetsOf, List.count, List.countP_map]
  rfl

/-- The counts of a symbol add up to the edges that target it. -/
theorem Counted.sum_dependents (h : Counted t) (id : SymbolId) :
    (t.dependents.getD id ∅).values.sum = (t.allEdges.filter fun e => e.target == id).length := by
  have hcount : (t.dependents.getD id ∅).values =
      (t.dependents.getD id ∅).keys.map fun owner => (t.targetsOf owner).count id := by
    rw [values_eq_map_getD _ 0]
    exact List.map_congr_left fun owner _ => h.exact id owner
  rw [hcount, length_edges_to, ← List.sum_toFinset _ (keys_nodup _),
    ← List.sum_toFinset _ (keys_nodup _)]
  -- an owner of an edge to the symbol is an owner of edges, and other owners count for nothing
  refine Finset.sum_subset (fun owner ho => ?_) fun owner _ hno => ?_
  · rw [List.mem_toFinset] at ho ⊢
    obtain ⟨e, he, -⟩ := h.mem_dependentFiles.1 ho
    rw [mem_keys]
    by_contra hc
    rw [edgesOf, getD_of_none (contains_eq_false_iff.1 (by simpa using hc))] at he
    cases he
  · rw [List.mem_toFinset] at hno
    rw [List.count_eq_zero, targetsOf, List.mem_map]
    rintro ⟨e, he, hid⟩
    exact hno (h.mem_dependentFiles.2 ⟨e, he, hid⟩)

theorem Counted.isOrphan_iff (h : Counted t) :
    t.isOrphan s = true ↔ s.isExternal = true ∧ ∀ e ∈ t.allEdges, e.target ≠ s.id := by
  rw [isOrphan, Bool.and_eq_true, Bool.not_eq_true', ← Bool.not_eq_true, h.contains_dependents]
  simp only [mem_allEdges]
  grind

/-- The index of dependents counts exactly the edges of every owner to every symbol and keeps no
zero. So the dependent files of a symbol are, in order and once each, the owners of edges to it; the
references to a name are as many as its counts say; and pruning forgets exactly the placeholders
that no edge targets. -/
theorem dependents_after (ops : List Operation) : (∀ id owner, (after ops).dependentCount id owner =
      ((after ops).edgesOf owner).countP fun e => e.target == id) ∧
    (∀ id counts, (after ops).dependents.get? id = some counts →
      counts.isEmpty = false ∧ ∀ owner n, counts.get? owner = some n → n ≠ 0) ∧
    (∀ id, ((after ops).dependentFiles id).Pairwise (fun a b => compare a b = .lt) ∧
      ∀ owner, owner ∈ (after ops).dependentFiles id ↔
        ∃ e ∈ (after ops).edgesOf owner, e.target = id) ∧
    (∀ fqn, (after ops).symbols.contains fqn = true →
      ∃ r, (after ops).references? fqn = some r ∧
        r.edges.length = ((after ops).dependents.getD (.ofFqn fqn) ∅).values.sum) ∧
    (∀ fqn s, (after ops).pruneExternals.2.symbols.get? fqn = some s ↔
      (after ops).symbols.get? fqn = some s ∧
        ¬(s.isExternal = true ∧ ∀ e ∈ (after ops).allEdges, e.target ≠ s.id)) ∧
    ∀ id, (after ops).pruneExternals.1.contains id = true ↔
      ∃ fqn s, (after ops).symbols.get? fqn = some s ∧ s.id = id ∧ s.isExternal = true ∧
        ∀ e ∈ (after ops).allEdges, e.target ≠ id := by
  obtain ⟨hanchored, hcounted, -⟩ := intact_after ops
  obtain ⟨-, -, -, -, hsym, hids⟩ := pruneExternals_spec fun hs => (hanchored.symbol hs).1
  refine ⟨fun id owner => ?_, fun id counts hc => ?_, fun id => ?_, fun fqn hc => ?_,
    fun fqn s => ?_, fun id => ?_⟩
  · rw [hcounted.exact, targetsOf, List.count, List.countP_map]
    rfl
  · exact ⟨hcounted.nonempty hc, fun owner n hn => (hcounted.pos hc hn).ne'⟩
  · exact ⟨keys_pairwise _, fun owner => hcounted.mem_dependentFiles⟩
  · obtain ⟨s, hs⟩ := contains_iff.1 hc
    refine ⟨_, congrArg (Option.map _) hs, ?_⟩
    rw [← (hanchored.symbol hs).2, hcounted.sum_dependents, List.length_map]
  · rw [hsym, Option.filter_eq_some_iff, ← hcounted.isOrphan_iff]
    simp
  · rw [hids]
    simp only [hcounted.isOrphan_iff]
    constructor
    · rintro ⟨fqn, s, hs, ⟨hext, hno⟩, rfl⟩
      exact ⟨fqn, s, hs, rfl, hext, hno⟩
    · rintro ⟨fqn, s, hs, rfl, hext, hno⟩
      exact ⟨fqn, s, hs, ⟨hext, hno⟩, rfl⟩

end Table

end CodeAtlas

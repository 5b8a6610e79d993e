import Mathlib
import CodeAtlas.Proofs.Table.Integrity

/-!
# Whose definition wins

A `Ledger` is the plain account of what files define: one entry per file, the latest accepted commit
first, each with the symbols of its names. It knows nothing of shadowed definitions, namespaces and
placeholders. A table and the ledger of the same operations agree (`Records`): the definitions in a
cell are those of the ledger, in the same order.

Main results:

* `Records.apply`: one operation keeps table and ledger in agreement.
* `latest_definition_wins`: the symbol of a name is the definition of the latest file that has one,
  so a definition that was shadowed is back once the later ones are gone.
-/

namespace CodeAtlas.Table

open SortedMap

variable {symbols : List Symbol}

/-! ## The ledger -/

/-- What files define, the latest commit first. -/
abbrev Ledger := List (String × SortedMap String Symbol)

namespace Ledger

/-- The definitions of a name, the latest first. -/
def definitions (l : Ledger) (fqn : String) : List Symbol := l.filterMap fun e => e.2.get? fqn

/-- The latest file that defines a name, with its definition. -/
def latest? (l : Ledger) (fqn : String) : Option (String × Symbol) :=
  l.findSome? fun e => (e.2.get? fqn).map (e.1, ·)

/-- The symbols of a commit by their names; the last one of a name counts. -/
def definitionsOf (symbols : List Symbol) : SortedMap String Symbol :=
  .ofList (symbols.map fun s => (s.fqn, s))

/-- The ledger without a file. -/
def without (l : Ledger) (file : String) : Ledger := l.filter fun e => e.1 != file

/-- The ledger after an operation on the table: an accepted commit moves its file to the front with
the symbols of the commit. -/
def note (l : Ledger) (t : Table) : Operation → Ledger
  | .commit file symbols =>
    match (t.commitFile file symbols).1 with
    | .ok _ => (file, definitionsOf symbols) :: l.without file
    | .error _ => l
  | .remove file => l.without file
  | _ => l

end Ledger

/-- The table and the ledger that a list of operations makes of the empty ones. -/
def replay (ops : List Operation) : Table × Ledger :=
  ops.foldl (fun a op => (a.1.apply op, a.2.note a.1 op)) (.empty, [])

/-- The ledger of a list of operations. -/
def ledger (ops : List Operation) : Ledger := (replay ops).2

/-- No commit is for the empty path. -/
def Operation.IsPlaced : Operation → Prop
  | .commit file _ => file ≠ ""
  | _ => True

theorem replay_fst (ops : List Operation) : (replay ops).1 = after ops := by
  have hrun : ∀ (l : List Operation) (a : Table × Ledger),
      (l.foldl (fun a op => (a.1.apply op, a.2.note a.1 op)) a).1 = l.foldl apply a.1 := by
    intro l
    induction l with
    | nil => exact fun a => rfl
    | cons op rest ih => exact fun a => ih _
  exact hrun ops _

variable {t t' : Table} {l : Ledger} {fqn file : String}

/-! ## How the definitions of a name change -/

/-- Every cell is as it should be, and only the definitions of some names change. -/
structure Redefines (t t' : Table) (f : String → List Symbol → List Symbol) : Prop where
  ok : CellsOk t'
  files : t'.files = t.files
  definitions : ∀ g, (t'.cell g).definitions = f g (t.cell g).definitions

theorem Redefines.refl (h : CellsOk t) : Redefines t t fun _ => id := ⟨h, rfl, fun _ => rfl⟩

theorem Redefines.of_touches (ht : Touches fqn t t') (hok : CellsOk t')
    {f : List Symbol → List Symbol} (hd : (t'.cell fqn).definitions = f (t.cell fqn).definitions) :
    Redefines t t' fun g => if g = fqn then f else id := by
  refine ⟨hok, ht.files, fun g => ?_⟩
  by_cases hg : g = fqn
  · rw [hg, if_pos rfl, hd]
  · rw [if_neg hg, ht.cells g hg]
    rfl

/-- An operation that keeps the definitions of its name. -/
theorem Redefines.of_same_definitions (ht : Touches fqn t t') (hok : CellsOk t')
    (hd : (t'.cell fqn).definitions = (t.cell fqn).definitions) : Redefines t t' fun _ => id := by
  refine ⟨hok, ht.files, fun g => ?_⟩
  by_cases hg : g = fqn
  · rw [hg, hd]
    rfl
  · rw [ht.cells g hg]
    rfl

theorem Redefines.trans {t'' : Table} {f f' : String → List Symbol → List Symbol}
    (h : Redefines t t' f) (h' : Redefines t' t'' f') : Redefines t t'' fun g l => f' g (f g l) :=
  ⟨h'.ok, h'.files.trans h.files, fun g => by rw [h'.definitions, h.definitions]⟩

/-- The definitions that other files than `file` have. -/
def others (file : String) (l : List Symbol) : List Symbol := l.filter fun s => s.file != file

theorem others_others (file : String) (l : List Symbol) :
    others file (others file l) = others file l := by
  simp [others, List.filter_filter]

theorem withdraw_redefines (h : CellsOk t) (fqn file : String) :
    Redefines t (t.withdraw fqn file).2 fun g => if g = fqn then others file else id := by
  obtain ⟨⟨ht, hc⟩, -, -⟩ := withdraw_spec (h fqn).regular file
  refine .of_touches ht (h.withdraw fqn file) ?_
  rw [hc]
  refine (h fqn).definitions_withdraw fun s hs => ?_
  obtain ⟨-, rfl⟩ := Cell.fallback_eq_some.1 hs
  rfl

theorem withdrawAll_redefines (fqns : List String) (file : String) {w : Withdrawn}
    (h : CellsOk w.table) : Redefines w.table (fqns.foldl (Withdrawn.step file) w).table fun g =>
      if g ∈ fqns then others file else id := by
  induction fqns generalizing w with
  | nil => simpa using Redefines.refl h
  | cons fqn rest ih =>
    have hstep := withdraw_redefines h fqn file
    rw [← step_table] at hstep
    have hall := hstep.trans (ih hstep.ok)
    refine ⟨hall.ok, hall.files, fun g => (hall.definitions g).trans ?_⟩
    by_cases hg : g = fqn
    · subst hg
      by_cases hr : g ∈ rest <;> simp [hr, others_others]
    · simp [hg]

theorem definitions_release {c : Cell} {declared : Bool} :
    (c.release declared).definitions = c.definitions := by
  unfold Cell.release Cell.definitions
  cases hc : c.current with
  | none => rfl
  | some s =>
    -- the symbol of a namespace is nobody's definition
    dsimp only [Option.filter]
    split
    · rfl
    · next hk =>
      have hfile : s.file = "" := by simp_all
      simp [Symbol.isPlaced, hfile]

theorem releaseModule_redefines (h : CellsOk t) (ns file : String) :
    Redefines t (t.releaseModule ns file).2 fun _ => id := by
  obtain ⟨⟨ht, hc⟩, -, -⟩ := releaseModule_spec (h ns).regular (h ns).declared_of_bare file
  refine .of_same_definitions ht (h.releaseModule ns file) ?_
  rw [hc, definitions_release]

theorem acquireModule_redefines (h : CellsOk t) (ns file : String) :
    Redefines t (t.acquireModule ns file) fun _ => id := by
  obtain ⟨⟨ht, hc⟩, -⟩ := acquireModule_spec t ns file
  refine .of_same_definitions ht (h.acquireModule ns file) ?_
  rw [hc, Cell.definitions_acquire rfl]

theorem declare_redefines {w : Withdrawn} (h : CellsOk w.table) (file : String)
    (old ns : Option String) : Redefines w.table (w.declare file old ns).table fun _ => id := by
  refine declare_induct (P := fun w' => Redefines w.table w'.table fun _ => id) (.refl h)
    (fun {o w'} _ hw => ?_) fun {n w'} _ hw => ?_
  · rw [release_table]
    exact hw.trans (releaseModule_redefines hw.ok o file)
  · exact hw.trans (acquireModule_redefines hw.ok n file)

theorem find?_eq_none_of_notMem {g : String} (h : g ∉ symbols.map (·.fqn)) :
    symbols.find? (fun s => s.fqn == g) = none :=
  List.find?_eq_none.2 fun s hs hsg => h (List.mem_map.2 ⟨s, hs, beq_iff_eq.1 hsg⟩)

/-- The definitions after a file defined each of `symbols`, which have different names. -/
theorem foldl_commitSymbol_redefines (symbols : List Symbol) {a : CommitSummary × Table}
    (h : CellsOk a.2) (hs : ∀ s ∈ symbols, s.file = file ∧ s.IsDefinition s.fqn)
    (hnodup : (symbols.map (·.fqn)).Nodup) :
    Redefines a.2 (symbols.foldl (commitSymbol file) a).2 fun g defs =>
      match symbols.find? fun s => s.fqn == g with
      | some s => s :: others file defs
      | none => defs := by
  induction symbols generalizing a with
  | nil => exact .refl h
  | cons s rest ih =>
    obtain ⟨rfl, hdef⟩ := hs s (List.mem_cons_self ..)
    obtain ⟨hnew, hnodup⟩ := List.nodup_cons.1 hnodup
    obtain ⟨⟨ht, hc⟩, -⟩ := commitSymbol_spec (t := a.2) hdef.fqn_eq hdef.id_eq a.1
    have hstep := Redefines.of_touches (f := fun defs => s :: others s.file defs) ht
      (h.commitSymbol hdef a.1) (by rw [hc, Cell.definitions_define hdef]; rfl)
    have hall := hstep.trans (ih hstep.ok (fun x hx => hs x (List.mem_cons_of_mem _ hx)) hnodup)
    refine ⟨hall.ok, hall.files, fun g => (hall.definitions g).trans ?_⟩
    rw [List.find?_cons]
    by_cases hg : g = s.fqn
    · rw [find?_eq_none_of_notMem (hg ▸ hnew)]
      simp [hg]
    · have hsg : (s.fqn == g) = false := by simpa using Ne.symm hg
      simp [hsg, hg]

/-! ## The symbols of a commit -/

/-- A symbol in the place of one of the same name. -/
theorem find?_map_replace (l : List Symbol) (s : Symbol) (g : String) :
    (l.map fun x => if x.fqn == s.fqn then s else x).find? (fun x => x.fqn == g) =
      (l.find? fun x => x.fqn == g).map fun x => if x.fqn == s.fqn then s else x := by
  rw [List.find?_map]
  congr 2
  funext x
  by_cases hx : x.fqn = s.fqn <;> simp [hx]

/-- An admitted set has one symbol for each name, the last one offered. -/
theorem admitSymbols_last {offered admitted result : List Symbol}
    {reports reports' : List Diagnostic} {m : SortedMap String Symbol}
    (h : t.admitSymbols file offered admitted reports = (.ok result, reports'))
    (hnodup : (admitted.map (·.fqn)).Nodup)
    (hm : ∀ g, m.get? g = admitted.find? fun s => s.fqn == g) : (result.map (·.fqn)).Nodup ∧ ∀ g,
      (m.insertAll (offered.map fun s => (s.fqn, s))).get? g = result.find? fun s => s.fqn == g := by
  induction offered generalizing admitted reports m with
  | nil =>
    cases h
    exact ⟨hnodup, hm⟩
  | cons s rest ih =>
    rw [admitSymbols] at h
    split at h
    · cases h
    · split at h
      · next hany =>
        obtain ⟨y, hy, hys⟩ := List.any_eq_true.1 hany
        refine ih (m := m.insert s.fqn s) h ?_ fun g => ?_
        · rw [List.map_map]
          convert hnodup using 2
          funext x
          by_cases hx : x.fqn = s.fqn <;> simp [hx]
        · rw [get?_insert_eq, hm, find?_map_replace]
          by_cases hg : g = s.fqn
          · have hsome : (admitted.find? fun x => x.fqn == g).isSome = true :=
              List.find?_isSome.2 ⟨y, hy, by simpa [hg] using hys⟩
            obtain ⟨x, hx⟩ := Option.isSome_iff_exists.1 hsome
            have hxg : x.fqn = g := by simpa using List.find?_some hx
            rw [if_pos hg, hx]
            simp [hxg, hg]
          · rw [if_neg hg]
            cases hx : admitted.find? fun x => x.fqn == g with
            | none => rfl
            | some x =>
              have hxg : x.fqn = g := by simpa using List.find?_some hx
              simp [hxg, hg]
      · next hany =>
        have hnew : ∀ x ∈ admitted, x.fqn ≠ s.fqn := by simpa using hany
        refine ih (m := m.insert s.fqn s) h ?_ fun g => ?_
        · rw [List.map_append, List.nodup_append]
          refine ⟨hnodup, List.nodup_singleton _, fun a ha b hb => ?_⟩
          obtain ⟨x, hx, rfl⟩ := List.mem_map.1 ha
          rw [List.mem_singleton.1 hb]
          exact hnew x hx
        · rw [get?_insert_eq, hm, List.find?_append]
          by_cases hg : g = s.fqn
          · have hnone : g ∉ admitted.map (·.fqn) := fun hmem => by
              obtain ⟨x, hx, hxg⟩ := List.mem_map.1 hmem
              exact hnew x hx (hxg.trans hg)
            rw [find?_eq_none_of_notMem hnone]
            simp [hg]
          · have hsg : (s.fqn == g) = false := by simpa using Ne.symm hg
            simp [hg, hsg]

/-! ## Table and ledger agree -/

/-- The ledger tells what the cells and the files of the table hold. -/
structure Records (t : Table) (l : Ledger) : Prop where
  ok : CellsOk t
  definitions : ∀ fqn, (t.cell fqn).definitions = l.definitions fqn
  /-- The symbols of a file in the ledger are its own. -/
  own : ∀ {file m}, (file, m) ∈ l → file ≠ "" ∧ ∀ {fqn s}, m.get? fqn = some s → s.file = file
  entry : ∀ {file entry}, t.files.get? file = some entry → entry.fqns.Nodup ∧ ∃ m, (file, m) ∈ l
  listed : ∀ {file m}, (file, m) ∈ l → ∃ entry, t.files.get? file = some entry ∧
    ∀ fqn, fqn ∈ entry.fqns ↔ m.contains fqn = true

namespace Records

theorem empty : Records .empty [] where
  ok := cellsOk_empty
  definitions _ := rfl
  own h := by cases h
  entry h := by cases h
  listed h := by cases h

section

variable (h : Records t l)

include h

/-- An operation that keeps the files and the definitions of every name. -/
theorem of_redefines (hr : Redefines t t' fun _ => id) : Records t' l where
  ok := hr.ok
  definitions fqn := (hr.definitions fqn).trans (h.definitions fqn)
  own := h.own
  entry hf := h.entry (hr.files ▸ hf)
  listed hl := hr.files ▸ h.listed hl

theorem of_sameSymbols (hs : SameSymbols t t') : Records t' l := by
  refine h.of_redefines ⟨h.ok.of_same hs, hs.files, fun g => ?_⟩
  rw [cell, hs.symbols, hs.shadowed]
  rfl

theorem definitions_without (file fqn : String) :
    (l.without file).definitions fqn = others file (l.definitions fqn) := by
  have hown : ∀ e ∈ l, ∀ s, e.2.get? fqn = some s → (s.file != file) = (e.1 != file) :=
    fun e he s hs => by rw [(h.own he).2 hs]
  clear h
  induction l with
  | nil => rfl
  | cons e rest ih =>
    have hrest := ih fun e he => hown e (List.mem_cons_of_mem _ he)
    have hhead := hown e (List.mem_cons_self ..)
    unfold Ledger.without Ledger.definitions others at hrest ⊢
    cases hs : e.2.get? fqn with
    | none => by_cases he : (e.1 != file) = true <;> simp_all
    | some s => by_cases he : (e.1 != file) = true <;> simp_all

/-- A name that a file does not define has definitions of others only. -/
theorem others_eq_self (hfqn : fqn ∉ (t.files.getD file {}).fqns) :
    others file (l.definitions fqn) = l.definitions fqn := by
  rw [others, List.filter_eq_self]
  intro s hs
  obtain ⟨⟨f, m⟩, hmem, hget⟩ := List.mem_filterMap.1 hs
  have hsf : s.file = f := (h.own hmem).2 hget
  rw [bne_iff_ne, hsf]
  rintro rfl
  obtain ⟨entry, hentry, hiff⟩ := h.listed hmem
  rw [getD_of_get? hentry, hiff] at hfqn
  exact hfqn (contains_of_get? hget)

theorem commitAdmitted (hfile : file ≠ "")
    (hs : ∀ s ∈ symbols, s.file = file ∧ s.IsDefinition s.fqn)
    (hnodup : (symbols.map (·.fqn)).Nodup) {m : SortedMap String Symbol}
    (hm : ∀ g, m.get? g = symbols.find? fun s => s.fqn == g) :
    Records (t.commitAdmitted file symbols).2 ((file, m) :: l.without file) := by
  set old := (t.files.getD file {}).fqns.filter fun f => !(symbols.map (·.fqn)).contains f with hold
  set w := t.madeWay file symbols
  set t₁ := t.stored file symbols
  -- the definitions of a name while the commit runs
  have hwithdraw : Redefines t (t.withdrawAll file old).table fun g =>
      if g ∈ old then others file else id := withdrawAll_redefines old file (w := { table := t }) h.ok
  have hdeclare : Redefines _ w.table fun _ => id := declare_redefines hwithdraw.ok file _ _
  have hcommit := foldl_commitSymbol_redefines symbols (a := (({} : CommitSummary), w.table))
    hdeclare.ok hs hnodup
  have hall : Redefines t t₁ _ := (hwithdraw.trans hdeclare).trans hcommit
  have hsame := commitAdmitted_same t file symbols
  have hfiles := commitAdmitted_files t file symbols
  have hkeys : ∀ g, g ∈ symbols.map (·.fqn) ↔ m.contains g = true := by
    intro g
    rw [contains, hm, List.find?_isSome, List.mem_map]
    simp only [beq_iff_eq]
  refine ⟨?_, fun g => ?_, fun {f m'} hmem => ?_, fun {f entry} hf => ?_, fun {f m'} hmem => ?_⟩
  · have hok : CellsOk { t₁ with files := t₁.files.insert file ⟨symbols.map (·.fqn),
        declaredModule? symbols⟩ } := hall.ok
    exact hok.of_same hsame
  · have hcell : (t.commitAdmitted file symbols).2.cell g = t₁.cell g :=
      Cell.ext (congrArg (·.get? g) hsame.symbols) (congrArg (·.getD g []) hsame.shadowed)
    have hdefs := hall.definitions g
    have hrest := h.definitions_without file g
    rw [hcell, hdefs, h.definitions]
    change _ = ((file, m) :: l.without file).filterMap fun e => e.2.get? g
    rw [List.filterMap_cons]
    dsimp only
    rw [hm]
    cases hg : symbols.find? fun s => s.fqn == g with
    | some s =>
      refine congrArg (s :: ·) (Eq.trans ?_ hrest.symm)
      dsimp only [id]
      split
      · exact others_others file _
      · rfl
    | none =>
      refine Eq.trans ?_ hrest.symm
      dsimp only [id]
      split
      · rfl
      · next hno =>
        refine (h.others_eq_self fun hmem => hno ?_).symm
        have hnot : g ∉ symbols.map (·.fqn) := fun hin => by simp [hkeys, contains, hm, hg] at hin
        exact List.mem_filter.2 ⟨hmem, by simpa using hnot⟩
  · rcases List.mem_cons.1 hmem with heq | hmem
    · cases heq
      refine ⟨hfile, fun {g s} hget => ?_⟩
      exact (hs s (List.mem_of_find?_eq_some ((hm g).symm.trans hget))).1
    · exact h.own (List.mem_filter.1 hmem).1
  · rw [hfiles, get?_insert_eq] at hf
    split at hf
    · next hff =>
      cases hf
      exact ⟨hnodup, m, hff ▸ List.mem_cons_self ..⟩
    · next hff =>
      obtain ⟨hn, m', hmem⟩ := h.entry hf
      exact ⟨hn, m', List.mem_cons_of_mem _ (List.mem_filter.2 ⟨hmem, by simpa using hff⟩)⟩
  · rw [hfiles]
    rcases List.mem_cons.1 hmem with heq | hmem
    · cases heq
      exact ⟨_, (get?_insert_eq ..).trans (if_pos rfl), hkeys⟩
    · obtain ⟨hmem, hne⟩ := List.mem_filter.1 hmem
      obtain ⟨entry, hentry, hiff⟩ := h.listed hmem
      exact ⟨entry, (get?_insert_eq ..).trans ((if_neg (by simpa using hne)).trans hentry), hiff⟩

theorem commitFile_ok (hfile : file ≠ "") {summary : CommitSummary}
    (hc : t.commitFile file symbols = (.ok summary, t')) :
    Records t' ((file, Ledger.definitionsOf symbols) :: l.without file) := by
  obtain ⟨admitted, reports, hadm, heq⟩ := commitFile_eq_ok hc
  have hdefs : ∀ s ∈ admitted, s.file = file ∧ s.IsDefinition s.fqn := by
    intro s hs
    obtain ⟨-, hid, hext, hsf⟩ := admitted_spec hadm hs
    exact ⟨hsf, rfl, hid, hext, hsf ▸ hfile⟩
  obtain ⟨hnodup, hlast⟩ := admitSymbols_last (m := ∅) hadm List.nodup_nil fun _ => rfl
  have hnew := (h.of_sameSymbols (SameGraph.setDiagnostics t (t.diagnostics ++ reports)).symbols)
    |>.commitAdmitted hfile hdefs hnodup hlast
  rwa [heq] at hnew

theorem commitFile (hfile : file ≠ "") (symbols : List Symbol) :
    Records (t.commitFile file symbols).2 (l.note t (.commit file symbols)) := by
  change Records _ (match (t.commitFile file symbols).1 with
    | .ok _ => (file, Ledger.definitionsOf symbols) :: l.without file
    | .error _ => l)
  rcases hc : t.commitFile file symbols with ⟨_ | summary, t'⟩
  · exact h.of_sameSymbols (commitFile_eq_error hc).symbols
  · exact h.commitFile_ok hfile hc

theorem removeFile (file : String) : Records (t.removeFile file).2 (l.without file) := by
  have hr : Redefines { t with files := t.files.erase file } (t.goneWith file).table fun g =>
      if g ∈ (t.files.getD file {}).fqns then others file else id := by
    have hok : CellsOk { t with files := t.files.erase file } := h.ok
    unfold goneWith
    cases hf : t.files.get? file with
    | none =>
      rw [erase_eq_self hf, getD_of_none hf]
      simpa using Redefines.refl h.ok
    | some entry =>
      rw [getD_of_get? hf]
      have hall := withdrawAll_redefines entry.fqns file
        (w := { table := { t with files := t.files.erase file } }) hok
      dsimp only
      cases entry.moduleName with
      | none => exact hall
      | some ns =>
        have hrelease := releaseModule_redefines hall.ok ns file
        rw [← release_table] at hrelease
        exact hall.trans hrelease
  have hsame := removeFile_same t file
  have hfiles := removeFile_files t file
  refine ⟨?_, fun g => ?_, fun hmem => h.own (List.mem_filter.1 hmem).1, fun {f entry} hf => ?_,
    fun {f m} hmem => ?_⟩
  · exact hr.ok.of_same hsame
  · have hcell : (t.removeFile file).2.cell g = (t.goneWith file).table.cell g :=
      Cell.ext (congrArg (·.get? g) hsame.symbols) (congrArg (·.getD g []) hsame.shadowed)
    have hold : ({ t with files := t.files.erase file } : Table).cell g = t.cell g := rfl
    rw [hcell, hr.definitions, hold, h.definitions, h.definitions_without]
    split
    · rfl
    · next hno => exact (h.others_eq_self hno).symm
  · rw [hfiles, get?_erase_eq] at hf
    split at hf
    · cases hf
    · next hff =>
      obtain ⟨hn, m, hmem⟩ := h.entry hf
      exact ⟨hn, m, List.mem_filter.2 ⟨hmem, by simpa using hff⟩⟩
  · obtain ⟨hmem, hne⟩ := List.mem_filter.1 hmem
    obtain ⟨entry, hentry, hiff⟩ := h.listed hmem
    rw [hfiles]
    exact ⟨entry, (get?_erase_eq ..).trans ((if_neg (by simpa using hne)).trans hentry), hiff⟩

theorem ensurePlaceholder (template : Symbol) : Records (t.ensurePlaceholder template).2 l := by
  obtain ⟨⟨ht, hc⟩, -⟩ := ensurePlaceholder_spec t template
  refine h.of_redefines (.of_same_definitions ht (h.ok.ensurePlaceholder template) ?_)
  rw [hc, Cell.definitions_acquire]
  rfl

theorem pruneExternals : Records t.pruneExternals.2 l := by
  obtain ⟨-, hfiles, hshadow, hmod, hsym, -⟩ :=
    pruneExternals_spec fun {g s} hs => ((h.ok g).named hs).1
  -- a cell is as before, or its placeholder is gone
  have hcell : ∀ g, t.pruneExternals.2.cell g = t.cell g ∨
      (∀ s, (t.cell g).current = some s → s.isPlaced = false) ∧
        t.pruneExternals.2.cell g = ⟨none, (t.cell g).hidden⟩ := by
    intro g
    cases hs : t.symbols.get? g with
    | none => exact .inl (Cell.ext ((hsym g).trans (by rw [hs]; exact hs.symm)) (by simp [cell, hshadow]))
    | some s =>
      by_cases ho : t.isOrphan s = true
      · refine .inr ⟨fun x hx => ?_, Cell.ext ((hsym g).trans ?_) (by simp [cell, hshadow])⟩
        · cases hs.symm.trans hx
          simp [Symbol.isPlaced, (Bool.and_eq_true_iff.1 ho).1]
        · simp [hs, Option.filter, ho]
      · refine .inl (Cell.ext ((hsym g).trans ?_) (by simp [cell, hshadow]))
        simp [cell, hs, Option.filter, ho]
  refine h.of_redefines ⟨fun g => ?_, hfiles, fun g => ?_⟩
  · rw [hmod]
    rcases hcell g with hg | ⟨hbare, hg⟩
    · rw [hg]
      exact h.ok g
    · rw [hg]
      exact (h.ok g).vacate hbare _
  · rcases hcell g with hg | ⟨hbare, hg⟩
    · rw [hg]
      rfl
    · rw [hg, (h.ok g).definitions_eq_nil hbare, Cell.definitions, (h.ok g).hidden_eq_nil hbare]
      rfl

/-- An operation keeps table and ledger in agreement. -/
theorem apply {op : Operation} (hop : op.IsPlaced) : Records (t.apply op) (l.note t op) := by
  cases op with
  | commit file symbols => exact h.commitFile hop symbols
  | remove file => exact h.removeFile file
  | external fqn => exact h.ensurePlaceholder _
  | placeholder template => exact h.ensurePlaceholder template
  | replace owner edges => exact h.of_sameSymbols (sameSymbols_replace t owner edges)
  | append owner edges => exact h.of_sameSymbols (sameSymbols_append t owner edges)
  | clear owner => exact h.of_sameSymbols (clearEdges_rewires t owner).same
  | prune => exact h.pruneExternals
  | report d => exact h.of_sameSymbols (SameGraph.record t d).symbols
  | takeReports => exact h.of_sameSymbols (SameGraph.setDiagnostics t []).symbols

end

end Records

theorem records_after {ops : List Operation} (h : ∀ op ∈ ops, op.IsPlaced) :
    Records (after ops) (ledger ops) := by
  have hrun : ∀ (ops : List Operation) (a : Table × Ledger), (∀ op ∈ ops, op.IsPlaced) →
      Records a.1 a.2 → Records (ops.foldl (fun a op => (a.1.apply op, a.2.note a.1 op)) a).1
        (ops.foldl (fun a op => (a.1.apply op, a.2.note a.1 op)) a).2 := by
    intro ops
    induction ops with
    | nil => exact fun a _ h => h
    | cons op rest ih =>
      intro a hops h
      exact ih _ (fun x hx => hops x (List.mem_cons_of_mem _ hx))
        (h.apply (hops op (List.mem_cons_self ..)))
  rw [← replay_fst]
  exact hrun ops _ h .empty

/-! ## The latest definition wins -/

namespace Records

/-- The definitions of a name start with that of the latest file. -/
theorem head?_definitions (l : Ledger) (fqn : String) :
    (l.definitions fqn).head? = (l.latest? fqn).map (·.2) := by
  rw [Ledger.definitions, List.head?_filterMap, Ledger.latest?]
  induction l with
  | nil => rfl
  | cons e rest ih =>
    rw [List.findSome?_cons, List.findSome?_cons, ih]
    cases e.2.get? fqn <;> rfl

section

variable (h : Records t l)

include h

theorem latest?_own {s : Symbol} (hl : l.latest? fqn = some (file, s)) :
    ∃ m, (file, m) ∈ l ∧ m.get? fqn = some s ∧ s.file = file := by
  obtain ⟨⟨f, m⟩, hmem, hget⟩ := List.exists_of_findSome?_eq_some hl
  obtain ⟨s', hs', heq⟩ := Option.map_eq_some_iff.1 hget
  cases heq
  exact ⟨m, hmem, hs', (h.own hmem).2 hs'⟩

/-- A name has the definition of the latest file. -/
theorem find_of_latest? {s : Symbol} (hl : l.latest? fqn = some (file, s)) :
    t.symbols.get? fqn = some s := by
  have hhead := head?_definitions l fqn
  rw [hl] at hhead
  obtain ⟨rest, hrest⟩ := List.head?_eq_some_iff.1 hhead
  exact (h.ok fqn).current_of_definitions ((h.definitions fqn).trans hrest)

/-- The symbol of a file under a name is the definition of the latest file. -/
theorem latest?_of_find {s : Symbol} (hs : t.symbols.get? fqn = some s)
    (hp : s.isPlaced = true) : l.latest? fqn = some (s.file, s) := by
  have hdefs : l.definitions fqn = s :: (t.cell fqn).hidden :=
    (h.definitions fqn).symm.trans (Cell.definitions_of_isPlaced hs hp)
  have hhead := head?_definitions l fqn
  rw [hdefs] at hhead
  obtain ⟨⟨f, s'⟩, hl, hs'⟩ := Option.map_eq_some_iff.1 hhead.symm
  obtain rfl : s' = s := hs'
  obtain ⟨-, -, -, rfl⟩ := h.latest?_own hl
  exact hl

theorem mem_symbolsInFile {s : Symbol} :
    s ∈ t.symbolsInFile file ↔ ∃ fqn, l.latest? fqn = some (file, s) := by
  unfold symbolsInFile symbolsNamed
  rw [List.mem_mergeSort, List.mem_filter, List.mem_filterMap]
  constructor
  · rintro ⟨⟨fqn, hfqn, hs⟩, hfile⟩
    have hsf : s.file = file := by simpa using hfile
    refine ⟨fqn, hsf ▸ h.latest?_of_find hs (Symbol.isPlaced_iff.2 ?_)⟩
    have hplaced : s.file ≠ "" := by
      cases hf : t.files.get? file with
      | none =>
        rw [getD_of_none hf] at hfqn
        cases hfqn
      | some entry =>
        obtain ⟨-, m, hmem⟩ := h.entry hf
        exact hsf ▸ (h.own hmem).1
    refine ⟨Bool.eq_false_iff.2 fun hext => hplaced ?_, hplaced⟩
    exact (h.ok fqn).placeless hs hext
  · rintro ⟨fqn, hl⟩
    obtain ⟨m, hmem, hget, hfile⟩ := h.latest?_own hl
    obtain ⟨entry, hentry, hiff⟩ := h.listed hmem
    refine ⟨⟨fqn, ?_, h.find_of_latest? hl⟩, by simpa using hfile⟩
    rw [getD_of_get? hentry, hiff]
    exact contains_of_get? hget

/-- What a file lists is known. -/
theorem contains_of_listed (hmem : fqn ∈ (t.files.getD file {}).fqns) :
    t.symbols.contains fqn = true := by
  cases hf : t.files.get? file with
  | none =>
    rw [getD_of_none hf] at hmem
    cases hmem
  | some entry =>
    rw [getD_of_get? hf] at hmem
    obtain ⟨-, m, hm⟩ := h.entry hf
    obtain ⟨entry', hentry, hiff⟩ := h.listed hm
    cases hf.symm.trans hentry
    obtain ⟨s, hs⟩ := contains_iff.1 ((hiff fqn).1 hmem)
    cases hl : l.latest? fqn with
    | some w => exact contains_of_get? (h.find_of_latest? hl)
    | none =>
      have := List.findSome?_eq_none_iff.1 hl _ hm
      simp [hs] at this

/-- A table that learns placeholders has the same definitions. -/
theorem of_taught (ht : Taught t t') (hok : CellsOk t') : Records t' l := by
  refine h.of_redefines ⟨hok, ht.files, fun g => ?_⟩
  have hhidden : (t'.cell g).hidden = (t.cell g).hidden := by simp [cell, ht.shadowed]
  have hcurrent : (t'.cell g).current.toList.filter Symbol.isPlaced =
      (t.cell g).current.toList.filter Symbol.isPlaced := by
    change (t'.symbols.get? g).toList.filter _ = (t.symbols.get? g).toList.filter _
    cases hs : t'.symbols.get? g with
    | none =>
      cases hx : t.symbols.get? g with
      | none => rfl
      | some x => cases hs.symm.trans (ht.kept hx)
    | some s =>
      rcases ht.new hs with hold | ⟨hnone, hext, -⟩
      · rw [hold]
      · rw [hnone]
        simp [Symbol.isPlaced, hext]
  unfold Cell.definitions
  rw [hhidden, hcurrent]
  rfl

theorem symbolsInFile_nodup (file : String) : (t.symbolsInFile file).Nodup := by
  unfold symbolsInFile symbolsNamed
  rw [List.nodup_mergeSort]
  refine List.Nodup.filter _ (List.Nodup.filterMap (fun a b s ha hb => ?_) ?_)
  · exact ((h.ok a).named ha).1.symm.trans ((h.ok b).named hb).1
  · cases hf : t.files.get? file with
    | none =>
      rw [getD_of_none hf]
      exact List.nodup_nil
    | some entry =>
      rw [getD_of_get? hf]
      exact (h.entry hf).1

end

end Records

/-- The symbol of a name is the definition of the latest file that defines it. Without such a file,
the name is unknown, a placeholder, or a namespace. The symbols of a file are its definitions that
win. -/
theorem latest_definition_wins (ops : List Operation) (h : ∀ op ∈ ops, op.IsPlaced) :
    (∀ fqn, match (ledger ops).latest? fqn with
      | some (_, s) => SymbolLookup.findFqn? (after ops) fqn = some s
      | none => ∀ s, SymbolLookup.findFqn? (after ops) fqn = some s →
          s.isExternal = true ∨ s = moduleSymbol fqn) ∧
    ∀ file, ((after ops).symbolsInFile file).Nodup ∧
      ∀ s, s ∈ (after ops).symbolsInFile file ↔ ∃ fqn, (ledger ops).latest? fqn = some (file, s) := by
  have hrec := records_after h
  refine ⟨fun fqn => ?_, fun file => ⟨hrec.symbolsInFile_nodup file, fun s => hrec.mem_symbolsInFile⟩⟩
  cases hl : (ledger ops).latest? fqn with
  | some w => exact hrec.find_of_latest? hl
  | none =>
    intro s hs
    by_cases hp : s.isPlaced = true
    · rw [hrec.latest?_of_find hs hp] at hl
      cases hl
    · by_cases hext : s.isExternal = true
      · exact .inl hext
      · have hfile : s.file = "" := by simpa [Symbol.isPlaced, hext] using hp
        exact .inr ((hrec.ok fqn).fileless hs (by simpa using hext) hfile).1

/-- Two files define one class; the second gives it up, and then the first one does. -/
def contested : List Operation :=
  [.commit "a.go" [{ Symbol.ofName "shop.Cart" "Cart" .classType with file := "a.go" }],
    .commit "b.go" [{ Symbol.ofName "shop.Cart" "Cart" .classType with file := "b.go" }],
    .prune, .remove "b.go", .commit "a.go" []]

theorem latest_definition_wins_contested : (∀ op ∈ contested, op.IsPlaced) ∧
      ∀ file s, s ∈ (after contested).symbolsInFile file ↔
        ∃ fqn, (ledger contested).latest? fqn = some (file, s) := by
  have hplaced : ∀ op ∈ contested, op.IsPlaced := by simp [contested, Operation.IsPlaced]
  exact ⟨hplaced, fun file s => ((latest_definition_wins contested hplaced).2 file).2 s⟩

end CodeAtlas.Table

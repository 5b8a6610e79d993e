import Mathlib
import CodeAtlas.Proofs.Table.Changes

/-!
# Known names are listed

An identifier that the table lists leads to a name with this identifier, whatever happened before
(`Anchored`). The converse needs that no two names share an identifier, for else a name takes the
entry of another one with it when it goes. Under this condition the identifier of every known name is
listed, so that an edge may lead there.

Main results:

* `Listed.take`: a name takes no entry with it but its own.
* `keeps_listed`: elementary changes keep known names listed.
* `listed_after`: the known names of every table are listed.
-/

namespace CodeAtlas.Table

open SortedMap

variable {names : Set String} {t t' : Table} {fqn file : String}

/-- The table knows only names of a set, and lists their identifiers. -/
structure Listed (names : Set String) (t : Table) : Prop where
  known : ∀ {fqn}, t.symbols.contains fqn = true → fqn ∈ names
  ids : ∀ {fqn}, t.symbols.contains fqn = true → t.ids.contains (.ofFqn fqn) = true

theorem listed_empty : Listed names .empty where
  known h := by cases h
  ids h := by cases h

namespace Listed

section

variable (h : Listed names t)

include h

/-- No further name is known, and all identifiers are kept. -/
theorem mono (hsym : ∀ {g}, t'.symbols.contains g = true → t.symbols.contains g = true)
    (hids : t'.ids = t.ids) : Listed names t' :=
  ⟨fun hc => h.known (hsym hc), fun hc => hids ▸ h.ids (hsym hc)⟩

/-- A name is added together with its identifier. -/
theorem put (hfqn : fqn ∈ names) (hsym : ∀ g, g ≠ fqn → t'.symbols.get? g = t.symbols.get? g)
    (hids : t'.ids = t.ids.insert (.ofFqn fqn) fqn) : Listed names t' := by
  have hold : ∀ {g}, t'.symbols.contains g = true → g = fqn ∨ t.symbols.contains g = true := by
    intro g hc
    by_cases hg : g = fqn
    · exact .inl hg
    · rw [contains, hsym g hg] at hc
      exact .inr hc
  refine ⟨fun {g} hc => ?_, fun {g} hc => ?_⟩
  · rcases hold hc with rfl | hc
    · exact hfqn
    · exact h.known hc
  · rw [hids, contains_insert]
    rcases hold hc with rfl | hc
    · simp
    · simp [h.ids hc]

/-- A name is forgotten together with its identifier, which is that of no other name. -/
theorem take (hinj : Set.InjOn SymbolId.ofFqn names) (hfqn : t.symbols.contains fqn = true)
    (hsym : ∀ g, t'.symbols.get? g = if g = fqn then none else t.symbols.get? g)
    (hids : t'.ids = t.ids.erase (.ofFqn fqn)) : Listed names t' := by
  have hold : ∀ {g}, t'.symbols.contains g = true → g ≠ fqn ∧ t.symbols.contains g = true := by
    intro g hc
    rw [contains, hsym] at hc
    split at hc
    · cases hc
    · next hne => exact ⟨hne, hc⟩
  refine ⟨fun hc => h.known (hold hc).2, fun {g} hc => ?_⟩
  obtain ⟨hne, hc⟩ := hold hc
  rw [hids]
  refine (contains_ids_erase (h.ids hc) _).resolve_right fun hid => hne ?_
  exact hinj (h.known hc) (h.known hfqn) hid

theorem insertNew {s : Symbol} (hs : s.StandsFor s.fqn)
    (hfqn : s.fqn ∈ names) : Listed names (t.insertNew s) :=
  h.put hfqn (fun g hg => (get?_insert_eq t.symbols s.fqn g s).trans (if_neg hg))
    (congrArg (t.ids.insert · s.fqn) hs.2)

/-! ## Changes -/

theorem withdraw (hp : t.Proper) (hinj : Set.InjOn SymbolId.ofFqn names)
    (fqn file : String) : Listed names (t.withdraw fqn file).2 := by
  rcases Cell.withdraw_cases file none (t.cell fqn) with
    ⟨-, hs⟩ | ⟨s, hs, hfile, hext, ⟨previous, rest, hr, -⟩ | ⟨hr, -⟩⟩
  · rw [withdraw_of_kept hs]
    exact h.mono id rfl
  · -- the definition that comes back has the same name
    rw [withdraw_of_hidden hs hfile hext hr]
    refine h.mono (fun {g} hc => ?_) rfl
    by_cases hg : g = fqn
    · rw [hg]
      exact contains_of_get? hs
    · change (t.symbols.insert fqn previous).contains g = true at hc
      rwa [contains, get?_insert_eq, if_neg hg] at hc
  · have hknown : t.symbols.contains fqn = true := contains_of_get? hs
    rw [withdraw_of_last hs hfile hext hr]
    by_cases hm : t.modules.contains fqn = true
    · simp only [hm, if_true]
      refine h.put (h.known hknown) (fun g hg => ?_) rfl
      refine (get?_insert_eq (t.symbols.erase fqn) fqn g _).trans ((if_neg hg).trans ?_)
      exact (get?_erase_eq t.symbols fqn g).trans (if_neg hg)
    · simp only [hm]
      exact h.take hinj hknown (get?_erase_eq t.symbols fqn)
        (congrArg t.ids.erase ((hp fqn).named hs).2)

theorem releaseModule (hp : t.Proper) (hinj : Set.InjOn SymbolId.ofFqn names)
    (ns file : String) : Listed names (t.releaseModule ns file).2 := by
  rcases releaseModule_cases t ns file with ⟨modules, heq⟩ | ⟨s, hs, -, -, heq⟩ <;> rw [heq]
  · exact h.mono id rfl
  · exact h.take hinj (contains_of_get? hs) (get?_erase_eq t.symbols ns)
      (congrArg t.ids.erase ((hp ns).named hs).2)

theorem acquireModule {ns : String} (hns : ns ∈ names) (file : String) :
    Listed names (t.acquireModule ns file) := by
  have hmod : ∀ modules, Listed names { t with modules } := fun _ => h.mono id rfl
  unfold Table.acquireModule
  dsimp only
  split
  · exact hmod _
  · exact (hmod _).insertNew ⟨rfl, rfl⟩ hns

theorem commitSymbol {s : Symbol} (hs : s.StandsFor s.fqn)
    (hfqn : s.fqn ∈ names) (file : String) (summary : CommitSummary) :
    Listed names (commitSymbol file (summary, t) s).2 := by
  obtain ⟨hsym, hids, -⟩ := insertSymbol_fields (t.purgeShadowed s.fqn file) s
  refine h.put hfqn (fun g hg => ?_) (hids.trans (by rw [hs.2]; rfl))
  exact (congrArg (SortedMap.get? · g) hsym).trans
    ((get?_insert_eq t.symbols s.fqn g s).trans (if_neg hg))

theorem ensurePlaceholder {template : Symbol} (hfqn : template.fqn ∈ names) :
    Listed names (t.ensurePlaceholder template).2 := by
  unfold Table.ensurePlaceholder
  split
  · exact h
  · exact h.insertNew ⟨rfl, rfl⟩ hfqn

end

end Listed

/-- No change takes a known name from the list. -/
theorem keeps_listed (hinj : Set.InjOn SymbolId.ofFqn names) :
    Keeps names (fun s => s.fqn ∈ names) fun t => Listed names t ∧ t.Proper := by
  have hproper : ∀ {t t' : Table}, t.Proper → Change (fun _ => True) t t' → t'.Proper :=
    fun h hc => h.change hc
  exact {
    same := fun h hs => ⟨h.1.mono (fun hc => hs.symbols ▸ hc) hs.ids, hproper h.2 (.same hs)⟩
    withdraw := fun h fqn file => ⟨h.1.withdraw h.2 hinj fqn file, hproper h.2 (.withdraw fqn file)⟩
    release := fun h ns file =>
      ⟨h.1.releaseModule h.2 hinj ns file, hproper h.2 (.release ns file)⟩
    acquire := fun h _ hns file => ⟨h.1.acquireModule hns file, hproper h.2 (.acquire _ file)⟩
    define := fun h _ summary hs hint hfqn =>
      ⟨h.1.commitSymbol hs hfqn _ summary, hproper h.2 (.define summary hs hint trivial)⟩
    placeholder := fun h _ hfqn => ⟨h.1.ensurePlaceholder hfqn, hproper h.2 (.placeholder _)⟩
    drop := fun {t} h {s} hs hext =>
      ⟨h.1.take hinj (contains_of_get? hs) (get?_erase_eq t.symbols s.fqn)
        (congrArg t.ids.erase ((h.2 s.fqn).named hs).2), hproper h.2 (.drop hs hext)⟩ }

/-- The identifiers of all known names are listed. -/
theorem listed_after (hinj : Set.InjOn SymbolId.ofFqn names) {ops : List Operation}
    (hops : ∀ op ∈ ops, op.UsesNames names) : Listed names (after ops) := by
  induction ops using List.reverseRecOn with
  | nil => exact listed_empty
  | append_singleton ops op ih =>
    have hop := hops op (List.mem_append_right _ (List.mem_singleton_self op))
    rw [after_append]
    refine ((keeps_listed hinj).apply ⟨ih fun x hx => hops x (List.mem_append_left _ hx),
      proper_after ops⟩ (intact_after ops).anchored hop ?_).1
    rintro s ⟨file, symbols, summary, rfl, -, hs⟩
    exact (hop s hs).1

end CodeAtlas.Table

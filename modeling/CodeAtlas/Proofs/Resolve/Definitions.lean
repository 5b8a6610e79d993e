import Mathlib
import CodeAtlas.Proofs.Resolve.Findings
import CodeAtlas.Proofs.Table.Integrity

/-!
# Resolution reads definitions only

Placeholders stand among the symbols of a snapshot, under the same names as definitions. No look-up
of a resolver answers one, so a snapshot can be cut down to its definitions (`Snapshot.definitions`)
without a change to what is found in it.

Main results:

* `View.findings_definitions`: a file has the same findings with and without placeholders.
* `Table.resolution_ignores_placeholders`: tables with the same definitions resolve a file to the
  same edges, whatever placeholders, edges and hidden definitions they have.
-/

namespace CodeAtlas

open SortedMap SymbolLookup

/-! ## Look-ups -/

/-- The snapshot without its placeholders. -/
def Snapshot.definitions (s : Snapshot) : Snapshot := ⟨s.symbols.filter fun _ x => !x.isExternal⟩

/-- The view without the placeholders of its snapshot. -/
def View.definitions (v : View) : View := { v with snapshot := v.snapshot.definitions }

namespace Snapshot

variable {s s' : Snapshot}

@[simp] theorem findDefined?_definitions (s : Snapshot) :
    findDefined? s.definitions = findDefined? s := by
  funext fqn
  change ((s.symbols.filter fun _ x => !x.isExternal).get? fqn).filter (fun x => !x.isExternal) =
    (s.symbols.get? fqn).filter fun x => !x.isExternal
  rw [get?_filter, Option.filter_filter]
  simp only [Bool.and_self]

/-- The definitions are determined by the look-ups that answer them. -/
theorem definitions_eq (h : ∀ fqn, findDefined? s fqn = findDefined? s' fqn) :
    s.definitions = s'.definitions := by
  refine congrArg mk (SortedMap.ext fun fqn => ?_)
  rw [get?_filter, get?_filter]
  exact h fqn

/-- A look-up by short name that accepts no placeholder. -/
theorem filter_named_definitions (s : Snapshot) (name : String) {p : Symbol → Bool}
    (hp : ∀ x, p x = true → x.isExternal = false) :
    (SymbolLookup.named s.definitions name).filter p = (SymbolLookup.named s name).filter p := by
  change ((s.symbols.filter fun _ x => !x.isExternal).values.filter _).filter p = _
  rw [values_filter, List.filter_filter, List.filter_filter]
  refine (List.filter_congr fun x _ => ?_).trans (List.filter_filter ..).symm
  cases hpx : p x with
  | false => rfl
  | true => simp [hp x hpx]

theorem not_isExternal_of_isGlobal {filter : LookupFilter} {x : Symbol}
    (h : isGlobal filter x.kind = true) : x.isExternal = false := by
  cases hk : x.kind <;> simp_all [isGlobal, Symbol.isExternal]

@[simp] theorem findGlobal?_definitions (s : Snapshot) (name : String) (c : Scope)
    (filter : LookupFilter) :
    findGlobal? s.definitions name c filter = findGlobal? s name c filter := by
  unfold findGlobal?
  rw [s.filter_named_definitions name fun _ => not_isExternal_of_isGlobal]

@[simp] theorem resolve?_definitions (s : Snapshot) (name : String) (c : Scope)
    (filter : LookupFilter) : resolve? s.definitions name c filter = resolve? s name c filter := by
  unfold resolve?
  rw [findDefined?_definitions, findGlobal?_definitions]

end Snapshot

namespace View

variable (v : View)

@[simp] theorem snapshot_definitions : v.definitions.snapshot = v.snapshot.definitions := rfl

/-! ## Members -/

@[simp] theorem memberName_definitions : v.definitions.memberName = v.memberName := rfl

@[simp] theorem memberOf?_definitions : v.definitions.memberOf? = v.memberOf? := by
  funext owner member
  unfold memberOf?
  rw [snapshot_definitions, Snapshot.findDefined?_definitions, memberName_definitions]

@[simp] theorem supertypesOf_definitions : v.definitions.supertypesOf = v.supertypesOf := by
  funext s
  unfold supertypesOf
  simp only [snapshot_definitions, Snapshot.resolve?_definitions]
  rfl

@[simp] theorem visit_definitions : Search.visit v.definitions = Search.visit v := by
  funext member depth s parent
  unfold Search.visit
  rw [memberOf?_definitions, supertypesOf_definitions]

@[simp] theorem visitAll_definitions : Search.visitAll v.definitions = Search.visitAll v := by
  funext member depth parents s
  unfold Search.visitAll
  rw [visit_definitions]

theorem search_definitions (member : String) (seen : StringSet) (queue : List (List Symbol × Nat)) :
    v.definitions.search member seen queue = v.search member seen queue := by
  fun_induction search v member seen queue with
  | case1 => rw [search]
  | case2 seen parents depth queue s m hm =>
    rw [search, visitAll_definitions, hm]
  | case3 seen parents depth queue s hm ih =>
    rw [search, visitAll_definitions, hm]
    exact ih

@[simp] theorem inheritedMember?_definitions :
    v.definitions.inheritedMember? = v.inheritedMember? := by
  funext owner member
  unfold inheritedMember?
  rw [supertypesOf_definitions, search_definitions]

/-! ## References -/

variable (o : Origin) (c : Scope)

@[simp] theorem named_definitions (filter : LookupFilter) (name : String) :
    v.definitions.named o c filter name = v.named o c filter name := by
  unfold named
  rw [snapshot_definitions, Snapshot.resolve?_definitions]

theorem typed_definitions (filter : LookupFilter) (target : Target) :
    v.definitions.typed o c filter target = v.typed o c filter target := by
  cases target <;> simp only [typed, named_definitions]

@[simp] theorem methodOf?_definitions : v.definitions.methodOf? o = v.methodOf? o := by
  funext owner name
  unfold methodOf?
  rw [memberOf?_definitions, inheritedMember?_definitions]

theorem ownCall_definitions (onSelf : Bool) (name : String) :
    v.definitions.ownCall o c onSelf name = v.ownCall o c onSelf name := by
  unfold ownCall
  simp only [snapshot_definitions, Snapshot.findDefined?_definitions, methodOf?_definitions,
    Snapshot.resolve?_definitions, memberName_definitions]

theorem staticCall_definitions (typeName name : String) :
    v.definitions.staticCall o c typeName name = v.staticCall o c typeName name := by
  unfold staticCall
  simp only [snapshot_definitions, methodOf?_definitions, Snapshot.resolve?_definitions,
    memberName_definitions]

theorem dynamicCall_definitions (expression name : String) :
    v.definitions.dynamicCall o expression name = v.dynamicCall o expression name := by
  have hmethod : ∀ x : Symbol, (x.kind == .method) = true → x.isExternal = false := by
    intro x hx
    rw [Symbol.isExternal, beq_iff_eq.1 hx]
    rfl
  unfold dynamicCall
  rw [snapshot_definitions, v.snapshot.filter_named_definitions name hmethod]

theorem call_definitions (receiver : Receiver) (target : Target) :
    v.definitions.call o c receiver target = v.call o c receiver target := by
  cases target with
  | name name =>
    cases receiver with
    | unqualified => exact v.ownCall_definitions _ c false name
    | selfRef => exact v.ownCall_definitions _ c true name
    | typeName t => exact v.staticCall_definitions _ c t name
    | expression text => exact v.dynamicCall_definitions _ text name
  | viaVariable text | dynamic text => rfl

theorem importEdge_definitions (f : FileSketch) : v.definitions.importEdge f = v.importEdge f := by
  funext i
  unfold importEdge
  rw [snapshot_definitions, Snapshot.findDefined?_definitions]

theorem referenceEdge_definitions (f : FileSketch) :
    v.definitions.referenceEdge f c = v.referenceEdge f c := by
  funext r
  unfold referenceEdge
  simp only [typed_definitions, call_definitions]

/-- A file has the same findings with and without placeholders. -/
theorem findings_definitions (f : FileSketch) : v.definitions.findings f = v.findings f := by
  unfold findings
  rw [importEdge_definitions, referenceEdge_definitions]

end View

/-! ## Tables -/

namespace Table

/-- What a table hands out under the name of a template has the identifier of that name, be it new
or not. -/
theorem Anchored.id_ensurePlaceholder {t : Table} (h : t.Anchored) (template : Symbol) :
    (t.ensurePlaceholder template).1.id = .ofFqn template.fqn := by
  unfold ensurePlaceholder
  split
  · next x hx => exact (h.symbol hx).2
  · rfl

theorem Taught.findDefined?_eq {t t' : Table} (h : Taught t t') (fqn : String) :
    findDefined? t' fqn = findDefined? t fqn := by
  refine Option.ext fun x => ?_
  simp only [findDefined?, findFqn?, Option.filter_eq_some_iff, Bool.not_eq_true']
  exact ⟨fun hx => ⟨h.internal hx.1 hx.2, hx.2⟩, fun hx => ⟨h.kept hx.1, hx.2⟩⟩

/-- Tables that define the same resolve a file to the same edges. Their placeholders, their edges and
their hidden definitions do not matter, nor what has become of them since the snapshots were taken.
What a table hands out for the placeholder of an edge is what the edge leads to, be it new or not. -/
theorem resolution_ignores_placeholders (f : FileSketch)
    (sketches : SortedMap String FileSketch) (ops later ops' later' : List Operation)
    (h : ∀ fqn, findDefined? (after ops) fqn = findDefined? (after ops') fqn) :
    ((after (ops ++ later)).resolveFile ⟨(after ops).snapshot, sketches⟩ f).1.edges =
        ((after (ops' ++ later')).resolveFile ⟨(after ops').snapshot, sketches⟩ f).1.edges ∧
      ∀ found ∈ View.findings ⟨(after ops).snapshot, sketches⟩ f, ∀ x,
        found.placeholder = some x →
          ((after (ops ++ later)).ensurePlaceholder x).1.id = found.edge.target := by
  constructor
  · have hview : View.definitions ⟨(after ops).snapshot, sketches⟩ =
        View.definitions ⟨(after ops').snapshot, sketches⟩ :=
      congrArg (View.mk · sketches) (Snapshot.definitions_eq h)
    have hfound : View.findings ⟨(after ops).snapshot, sketches⟩ f =
        View.findings ⟨(after ops').snapshot, sketches⟩ f := by
      rw [← View.findings_definitions, hview, View.findings_definitions]
    exact congrArg (fun l : List Finding => Edge.sort (l.map (·.edge))) hfound
  · intro found hfound x hx
    rw [(intact_after (ops ++ later)).anchored.id_ensurePlaceholder]
    rcases (View.findings_leads _ hfound).target with ⟨hnone, -⟩ | ⟨fqn, hsome, htarget⟩
    · rw [hnone] at hx
      cases hx
    · obtain rfl : Symbol.placeholder fqn (shortName fqn) = x :=
        Option.some.inj (hsome.symm.trans hx)
      exact htarget.symm

/-- A class that extends another one. -/
def derived : FileSketch where
  path := "derived.go"
  language := "go"
  separator := "."
  references := [{ kind := .extendsType, target := .name "Base", line := 1, column := 1 }]

/-- The edge to the other class is the same, whether or not it has a placeholder already. -/
theorem resolution_ignores_placeholders_derived :
    (∀ fqn, findDefined? (after [.external "Base"]) fqn = findDefined? (after []) fqn) ∧
      (after [.external "Base"]).symbols.contains "Base" = true ∧
      ((after [.external "Base"]).resolveFile ⟨(after [.external "Base"]).snapshot, ∅⟩
        derived).1.edges = ((after []).resolveFile ⟨(after []).snapshot, ∅⟩ derived).1.edges := by
  have hsame : ∀ fqn, findDefined? (after [.external "Base"]) fqn = findDefined? (after []) fqn :=
    (ensurePlaceholder_taught Table.empty _).findDefined?_eq
  exact ⟨hsame, by decide +kernel,
    (resolution_ignores_placeholders derived ∅ [.external "Base"] [] [] [] hsame).1⟩

end Table

end CodeAtlas

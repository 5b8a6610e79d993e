import Mathlib
import CodeAtlas.Proofs.Store.Database

/-!
# Rows read back

A row is read as what was written into it. The sketches of a file are one JSON text with a record
inside a record for every symbol, import, reference, literal and issue, variants with a tag, and
optional and nested values; names of kinds are texts, and the place of a file in the order is a
signed number.

Main results:

* `Json.Written.record?_object`: the fields of a record are found again, whatever their shape.
* `Json.Written.value?_written`: a nested value of regular form is what it is written as.
* `FileSketch.ofWritten?_toJson`: all sketches of a file are read back.
* `rows_read_back`: so are the rows of files, symbols and edges.
-/

namespace CodeAtlas

open Json

/-! ## Records in JSON -/

namespace Json

theorem writtenItems_eq (items : List Json) : writtenItems items = items.map written := by
  induction items with
  | nil => rfl
  | cons v rest ih => rw [writtenItems, ih, List.map_cons]

theorem writtenFields_eq (fields : List (String × Json)) :
    writtenFields fields = fields.map fun e => (some e.1, e.2.written) := by
  induction fields with
  | nil => rfl
  | cons e rest ih => rw [writtenFields, ih, List.map_cons]

namespace Written

theorem onlyField?_of_mem {fields : List (String × Written)} {e : String × Written}
    (hnodup : (fields.map (·.1)).Nodup) (h : e ∈ fields) (absence : Absence) :
    onlyField? fields e.1 absence = some e.2 := by
  have hfilter : fields.filter (·.1 == e.1) = [e] := filter_key_eq hnodup h
  unfold onlyField?
  rw [hfilter]

theorem mapM_onlyField? {all fields : List (String × Written)} {shape : Shape}
    (hnodup : (all.map (·.1)).Nodup) (hmem : ∀ e ∈ fields, e ∈ all)
    (hnames : shape.map (·.1) = fields.map (·.1)) :
    shape.mapM (fun e => onlyField? all e.1 e.2) = some (fields.map (·.2)) := by
  induction shape generalizing fields with
  | nil =>
    obtain rfl : fields = [] := by simpa using hnames.symm
    rfl
  | cons x shape ih =>
    cases fields with
    | nil => cases hnames
    | cons e fields =>
      rw [List.map_cons, List.map_cons, List.cons.injEq] at hnames
      rw [List.mapM_cons, hnames.1, onlyField?_of_mem hnodup (hmem e (List.mem_cons_self ..)),
        ih (fun y hy => hmem y (List.mem_cons_of_mem _ hy)) hnames.2]
      rfl

/-- An object with the fields of a shape, each of them once and in order, holds a record of this
shape. -/
theorem record?_object {shape : Shape} {fields : List (String × Json)}
    (hnames : shape.map (·.1) = fields.map (·.1)) (hnodup : (fields.map (·.1)).Nodup) :
    (Json.object fields).written.record? shape = some (fields.map (·.2.written)) := by
  have hnamed : (fields.map fun e => (some e.1, e.2.written)).mapM
      (fun e : Option String × Written => e.1.map (·, e.2)) =
        some (fields.map fun e => (e.1, e.2.written)) := mapM_map_eq_pure fun _ _ => rfl
  rw [written, writtenFields_eq]
  refine (congrArg (· >>= fun all => shape.mapM fun e => onlyField? all e.1 e.2) hnamed).trans ?_
  rw [Option.bind_eq_bind, Option.bind_some, mapM_onlyField? (by rwa [List.map_map])
    (fun _ => id) (by rwa [List.map_map]), List.map_map]
  rfl

@[simp] theorem string?_string (s : String) : (Json.string s).written.string? = some s := rfl

@[simp] theorem choice?_string (s : String) : (Json.string s).written.choice? = some s := rfl

@[simp] theorem bool?_bool (b : Bool) : (Json.bool b).written.bool? = some b := rfl

@[simp] theorem word?_ofWord (w : UInt32) : (ofWord w).written.word? = some w := by
  have h : w.toNat < UInt32.size := w.toNat_lt_size
  change ((if w.toNat < UInt32.size then some w.toNat else none).map Nat.toUInt32) = some w
  rw [if_pos h]
  simp

@[simp] theorem optString?_optString (s : Option String) :
    (optString s).written.optString? = some s := by
  cases s <;> rfl

theorem list?_array {α : Type} {toJson : α → Json} {read : Written → Option α} {l : List α}
    (h : ∀ a ∈ l, read (toJson a).written = some a) :
    (Json.array (l.map toJson)).written.list? read = some l := by
  rw [written, writtenItems_eq, List.map_map]
  exact (mapM_map_eq_pure h).trans (congrArg some l.map_id')

end Written

end Json

/-! ## Nested values -/

theorem SortedMap.ofList_entries {κ α : Type} [Ord κ] [Std.TransOrd κ] [Std.LawfulEqOrd κ]
    [DecidableEq κ] (m : SortedMap κ α) : ofList m.entries = m := by
  refine SortedMap.ext fun k => Option.ext fun a => ?_
  rw [get?_ofList_eq_some m.keys_nodup, mem_entries_iff]

namespace Json

/-- At most `levels` arrays and objects stand inside each other, and the fields of an object are in
order of their names. -/
inductive Regular : (levels : Nat) → Json → Prop
  | null {levels : Nat} : Regular levels .null
  | bool {levels : Nat} (b : Bool) : Regular levels (.bool b)
  | number {levels : Nat} (n : JsonNumber) : Regular levels (.number n)
  | string {levels : Nat} (s : String) : Regular levels (.string s)
  | array {levels : Nat} {items : List Json} (h : ∀ v ∈ items, Regular levels v) :
    Regular (levels + 1) (.array items)
  | object {levels : Nat} {fields : List (String × Json)}
    (hsorted : fields.Pairwise fun a b => compare a.1 b.1 = .lt)
    (h : ∀ e ∈ fields, Regular levels e.2) : Regular (levels + 1) (.object fields)

namespace Written

theorem itemValues?_eq (levels : Nat) (items : List Written) :
    itemValues? levels items = items.mapM (value? levels) := by
  induction items with
  | nil => rfl
  | cons w rest ih => rw [itemValues?, ih, List.mapM_cons]

theorem fieldValues?_eq (levels : Nat) (fields : List (Option String × Written)) :
    fieldValues? levels fields =
      fields.mapM fun e => e.1.bind fun k => (e.2.value? levels).map (k, ·) := by
  induction fields with
  | nil => rfl
  | cons e rest ih =>
    obtain ⟨k, w⟩ := e
    rw [fieldValues?, ih, List.mapM_cons]
    cases k <;> cases w.value? levels <;> rfl

theorem value?_written {levels : Nat} {j : Json} (h : j.Regular levels) :
    j.written.value? levels = some j := by
  induction h with
  | null | bool b => rw [written, value?]
  | number n | string s => rw [written, value?]; rfl
  | array _ ih =>
    rw [written, value?, writtenItems_eq, itemValues?_eq, mapM_map_eq_pure ih, List.map_id']
    rfl
  | @object levels fields hsorted _ ih =>
    have hfields : ∀ e ∈ fields, ((some e.1).bind fun k => (e.2.written.value? levels).map (k, ·)) =
        some e := fun e he => by rw [ih e he]; rfl
    rw [written, value?, writtenFields_eq, fieldValues?_eq, mapM_map_eq_pure hfields,
      List.map_id', Option.pure_def, Option.map_some, ofFields,
      SortedMap.ofList_entries ⟨fields, hsorted⟩]

theorem metadata?_ofMetadata {levels : Nat} {m : Metadata} (h : (ofMetadata m).Regular levels) :
    (ofMetadata m).written.metadata? levels = some m := by
  rw [metadata?, value?_written h, ofMetadata]
  exact congrArg some m.ofList_entries

end Written

end Json

/-! ## Sketches -/

open Written

theorem ReferenceKind.ofName?_name (k : ReferenceKind) : ofName? k.name = some k := by
  cases k <;> decide

theorem SymbolSketch.ofWritten?_toJson (s : SymbolSketch)
    (h : (ofMetadata s.metadata).Regular factLevels) : ofWritten? s.toJson.written = some s := by
  rw [ofWritten?, toJson, record?_object rfl (by simp)]
  simp [metadata?_ofMetadata h, SymbolKind.ofName?_name]

theorem ImportSketch.ofWritten?_toJson (i : ImportSketch) :
    ofWritten? i.toJson.written = some i := by
  rw [ofWritten?, toJson, record?_object rfl (by simp)]
  simp

theorem Receiver.ofWritten?_toJson (r : Receiver) : ofWritten? r.toJson.written = some r := by
  cases r with
  | unqualified | selfRef => rfl
  | typeName name | expression text =>
    rw [ofWritten?, toJson, record?_object rfl (by simp)]
    simp

theorem Target.ofWritten?_toJson (t : Target) : ofWritten? t.toJson.written = some t := by
  cases t <;> rw [ofWritten?, toJson, record?_object rfl (by simp)] <;> simp

theorem ReferenceSketch.ofWritten?_toJson (r : ReferenceSketch)
    (h : (ofMetadata r.extra).Regular factLevels) : ofWritten? r.toJson.written = some r := by
  rw [ofWritten?, toJson, record?_object rfl (by simp)]
  simp [metadata?_ofMetadata h, ReferenceKind.ofName?_name, Receiver.ofWritten?_toJson,
    Target.ofWritten?_toJson]

theorem LiteralAssignment.ofWritten?_toJson (a : LiteralAssignment) :
    ofWritten? a.toJson.written = some a := by
  rw [ofWritten?, toJson, record?_object rfl (by simp)]
  simp

theorem ParseIssue.ofWritten?_toJson (i : ParseIssue) : ofWritten? i.toJson.written = some i := by
  rw [ofWritten?, toJson, record?_object rfl (by simp)]
  simp

/-- The facts in a file's sketches are regular. -/
structure FileSketch.Regular (f : FileSketch) : Prop where
  metadata : ∀ s ∈ f.symbols, (ofMetadata s.metadata).Regular factLevels
  extra : ∀ r ∈ f.references, (ofMetadata r.extra).Regular factLevels

theorem FileSketch.ofWritten?_toJson {f : FileSketch} (h : f.Regular) :
    ofWritten? f.toJson.written = some f := by
  rw [ofWritten?, toJson, record?_object rfl (by simp)]
  have hsymbols := list?_array fun (s : SymbolSketch) hs => s.ofWritten?_toJson (h.metadata s hs)
  have hreferences := list?_array fun (r : ReferenceSketch) hr => r.ofWritten?_toJson (h.extra r hr)
  have himports := list?_array fun i (_ : i ∈ f.imports) => i.ofWritten?_toJson
  have hassignments := list?_array fun a (_ : a ∈ f.assignments) => a.ofWritten?_toJson
  have hissues := list?_array fun i (_ : i ∈ f.issues) => i.ofWritten?_toJson
  simp [hsymbols, himports, hreferences, hassignments, hissues]

/-! ## Rows -/

/-- The text of a value is read as the value. -/
def Json.Legible (j : Json) : Prop := Written.parse? j.compact = some j.written

theorem FileRow.optional_map {α : Type} {write : α → String} {read : String → Option α}
    {o : Option α} (h : ∀ a ∈ o, read (write a) = some a) (e : RowError) :
    optional read e (o.map write) = .ok o := by
  cases o with
  | none => rfl
  | some a =>
    rw [Option.map_some, optional, h a rfl]
    rfl

/-- What a row can hold of a file. -/
structure FileRecord.Storable (r : FileRecord) : Prop where
  seq : r.seq < 2 ^ 63
  resolvedAt : ∀ t ∈ r.resolvedAt, Timestamp.parse? t.render = some t
  legible : ∀ f ∈ r.sketches, f.toJson.Legible
  regular : ∀ f ∈ r.sketches, f.Regular

theorem FileRow.toRecord_ofRecord {r : FileRecord} (h : r.Storable) :
    (ofRecord r).toRecord = .ok r := by
  have hseq : (Int64.ofNat r.seq).toInt.toNat = r.seq := by
    rw [Int64.toInt_ofNat_of_lt h.seq, Int.toNat_natCast]
  have hsketches : optional (fun s => (Written.parse? s).bind FileSketch.ofWritten?)
      (.badSketches r.path) (r.sketches.map fun f => f.toJson.compact) = .ok r.sketches := by
    refine optional_map (fun f hf => ?_) _
    have hparse : Written.parse? f.toJson.compact = some f.toJson.written := h.legible f hf
    rw [hparse]
    exact FileSketch.ofWritten?_toJson (h.regular f hf)
  simp only [toRecord, ofRecord, FileState.ofName?_name, RowError.orElse,
    optional_map h.resolvedAt, hsketches, hseq]
  rfl

theorem EdgeRow.toEdge_ofEdge {e : Edge} (h : e.Storable) : (ofEdge e).toEdge = .ok e := by
  have hparse : Metadata.parse? e.metadata.render = some e.metadata := h.metadata
  simp only [toEdge, ofEdge, EdgeType.ofName?_name, hparse, RowError.orElse, Edge.ofScore,
    clamp_of_mem h.nonneg h.le_one]
  rfl

/-- The rows of files, symbols and edges are read as what was written: every file record that its
row can hold, every symbol, and every edge with a score from 0 to 1, as long as the JSON texts and
timestamps in them are read as they are written. -/
theorem rows_read_back : (∀ r : FileRecord, r.Storable → (FileRow.ofRecord r).toRecord = .ok r) ∧
    (∀ s : Symbol, s.metadata.Lossless → (NodeRow.ofSymbol s).toSymbol = .ok s) ∧
    ∀ e : Edge, e.Storable → (EdgeRow.ofEdge e).toEdge = .ok e :=
  ⟨fun _ => FileRow.toRecord_ofRecord, fun _ => NodeRow.toSymbol_ofSymbol,
    fun _ => EdgeRow.toEdge_ofEdge⟩

/-- What is known of a type with a supertype. -/
def derivedFacts : Metadata :=
  (∅ : SortedMap String Json).insert "supertypes" (.array [.string "B"])

/-- A resolved file with an import, a type and a call in it. -/
def derivedRecord : FileRecord :=
  { path := "f", language := "go", fingerprint := "", state := .resolved, resolvedAt := some {}
    seq := 1
    sketches := some
      { path := "f", language := "go", separator := "."
        symbols := [{ name := "C", kind := .classType, line := 1, column := 1
                      metadata := derivedFacts }]
        imports := [⟨"a", none, false, 1⟩]
        references := [{ kind := .call, target := .name "run", source := some "C"
                         receiver := .expression "x", line := 2, column := 3
                         extra := derivedFacts }] } }

theorem derivedFacts_regular : (Json.ofMetadata derivedFacts).Regular factLevels := by
  refine .object (List.pairwise_singleton _ _) fun e he => ?_
  obtain rfl := List.mem_singleton.1 he
  refine .array fun v hv => ?_
  obtain rfl := List.mem_singleton.1 hv
  exact .string _

set_option maxRecDepth 20000 in
theorem derivedRecord_legible : ∀ f ∈ derivedRecord.sketches, f.toJson.Legible := by
  simp only [derivedRecord, Option.mem_some_iff, forall_eq']
  unfold Json.Legible
  cbv

theorem derivedRecord_storable : derivedRecord.Storable where
  seq := by decide
  resolvedAt := by
    simp only [derivedRecord, Option.mem_some_iff, forall_eq']
    cbv
  legible := derivedRecord_legible
  regular := by
    simp only [derivedRecord, Option.mem_some_iff, forall_eq']
    exact ⟨by simp [derivedFacts_regular], by simp [derivedFacts_regular]⟩

theorem derivedFacts_lossless : derivedFacts.Lossless := by
  unfold Metadata.Lossless
  cbv

theorem rows_read_back_derived :
    let s : Symbol := { Symbol.ofName "C" "C" .classType with file := "f", metadata := derivedFacts }
    (FileRow.ofRecord derivedRecord).toRecord = .ok derivedRecord ∧
    (NodeRow.ofSymbol s).toSymbol = .ok s ∧
    (EdgeRow.ofEdge (Database.movingEdge "f")).toEdge = .ok (Database.movingEdge "f") :=
  ⟨rows_read_back.1 _ derivedRecord_storable, rows_read_back.2.1 _ derivedFacts_lossless,
    rows_read_back.2.2 _ (Database.movingEdge_storable "f")⟩

end CodeAtlas

import Mathlib.Data.List.Forall2
import NotebookTidy.Proofs.Json.RoundTrip
import NotebookTidy.Source.DiagnosticJson

/-! The objects that stand for a diagnostic. On every level the fields come in any order, unknown
ones may stand among them, and those that hold a default may be missing. What is written for a
diagnostic is one of these objects, and each of them is read as the diagnostic. -/
namespace NotebookTidy.Source
open Json

/-! Fields -/

/-- The fields that are there, under their names. -/
def named (names : List String) (given : List (Option Node)) : List (String × Node) :=
  (names.zip given).filterMap fun f => f.2.map (f.1, ·)

/-- The fields in any order, with others of unknown names among them. -/
inductive Spread (names : List String) (given : List (Option Node)) : Node → Prop where
  | object {fs : Fields} (fields unknown : List (String × Node))
      (apart : ∀ f ∈ unknown, f.1 ∉ names) (mixed : fields.Perm (named names given ++ unknown))
      (spelled : fs.toList = fields.map fun f => (some f.1, f.2)) : Spread names given (.object fs)

/-- A field with a node that fits, or no such field where it may be missing. -/
def Given (fits : Node → Prop) (missing : Prop) : Option Node → Prop
  | some n => fits n
  | none => missing

def Nullable {α : Type} (fits : α → Node → Prop) : Option α → Node → Prop
  | some a, n => fits a n
  | none, n => n = .null

def Listed {α : Type} (fits : α → Node → Prop) (as : List α) (n : Node) : Prop :=
  ∃ ns, n = .array ns ∧ List.Forall₂ fits as ns.toList

theorem namedCons (name : String) (names : List String) (first : Option Node)
    (given : List (Option Node)) :
    named (name :: names) (first :: given) =
      first.toList.map (name, ·) ++ named names given := by
  cases first <;> rfl

theorem namedNames (names : List String) (given : List (Option Node)) :
    ((named names given).map Prod.fst).Sublist names := by
  induction names generalizing given with
  | nil => exact .slnil
  | cons name names ih =>
    cases given with
    | nil => exact List.nil_sublist _
    | cons first given =>
      cases first with
      | none => exact (ih given).cons name
      | some n => exact (ih given).cons_cons name

theorem filterApart {fields : List (String × Node)} {name : String}
    (apart : ∀ f ∈ fields, f.1 ≠ name) : fields.filter (·.1 = name) = [] :=
  List.filter_eq_nil_iff.mpr fun f mem => by simpa using apart f mem

theorem namedField {names : List String} {given : List (Option Node)} (distinct : names.Nodup)
    {f : String × Option Node} (mem : f ∈ names.zip given) :
    (named names given).filter (·.1 = f.1) = f.2.toList.map (f.1, ·) := by
  induction names generalizing given with
  | nil => cases mem
  | cons name names ih =>
    obtain ⟨fresh, distinct⟩ := List.nodup_cons.mp distinct
    cases given with
    | nil => cases mem
    | cons first given =>
      rw [namedCons, List.filter_append]
      rcases List.mem_cons.mp mem with rfl | later
      · have others : ∀ g ∈ named names given, g.1 ≠ name := by
          intro g inside same
          have known := (namedNames names given).subset (List.mem_map_of_mem inside)
          exact fresh (same ▸ known)
        rw [filterApart others, List.append_nil]
        exact List.filter_eq_self.mpr (by simp)
      · have other : name ≠ f.1 := fun same => fresh (same ▸ (List.of_mem_zip later).1)
        rw [filterApart (by simp [other]), List.nil_append, ih distinct later]

theorem spreadFields {names : List String} {given : List (Option Node)} {n : Node}
    (spread : Spread names given n) (distinct : names.Nodup)
    (sizes : names.length = given.length) : recordFields? names n = some given := by
  cases spread with
  | object fields unknown apart mixed spelled =>
    refine recordFieldsObject spelled sizes fun f mem => ?_
    obtain ⟨name, field⟩ := f
    have known := mixed.filter (·.1 = name)
    rw [List.filter_append, namedField distinct mem,
      filterApart fun g inside same => apart g inside (same ▸ (List.of_mem_zip mem).1),
      List.append_nil] at known
    cases field with
    | none => exact List.perm_nil.mp known
    | some n => exact List.perm_singleton.mp known

/-! Reading -/

theorem givenDefault {α : Type} {default a : α} {read : Node → Option α} {fits : Node → Prop}
    {missing : Prop} {o : Option Node} (given : Given fits missing o)
    (reads : ∀ n, fits n → read n = some a) (same : missing → default = a) :
    withDefault? default read o = some a := by
  cases o with
  | none => exact congrArg some (same given)
  | some n => exact reads n given

theorem givenOptional {α : Type} {a : Option α} {read : Node → Option α} {fits : α → Node → Prop}
    {o : Option Node} (given : Given (Nullable fits a) (a = none) o) (refuses : read .null = none)
    (reads : ∀ a n, fits a n → read n = some a) : optional? read o = some a := by
  cases o with
  | none =>
    rw [show a = none from given]
    rfl
  | some n =>
    cases a with
    | none =>
      rw [show n = .null from given]
      rfl
    | some a =>
      have found : read n = some a := reads a n given
      have filled : n ≠ .null := by
        rintro rfl
        rw [refuses] at found
        cases found
      rw [optional?, found]
      · rfl
      · exact filled

theorem listedList {α : Type} {as : List α} {read : Node → Option α} {fits : α → Node → Prop}
    {n : Node} (listed : Listed fits as n) (reads : ∀ a n, fits a n → read n = some a) :
    list? read n = some as := by
  obtain ⟨ns, rfl, each⟩ := listed
  rw [list?]
  generalize ns.toList = nodes at each
  induction each with
  | nil => rfl
  | cons first rest ih =>
    rw [List.mapM_cons, reads _ _ first, ih]
    rfl

/-! Records -/

def ordinal (x : UInt32) : Node := .number (Number.integer x.toNat).numeral

def Quotes (text : String) (n : Node) : Prop := n = .string text

def Location.Written (l : Location) (n : Node) : Prop :=
  Spread ["row", "column"] [some (ordinal l.row), some (ordinal l.column)] n

def Edit.Written (e : Edit) (n : Node) : Prop :=
  ∃ content start stop, Given (Quotes e.content) (e.content = "") content ∧
    e.start.Written start ∧ e.stop.Written stop ∧
    Spread ["content", "location", "end_location"] [content, some start, some stop] n

def Fix.Written (f : Fix) (n : Node) : Prop :=
  ∃ applicability message edits,
    Given (Quotes f.applicability.name) (f.applicability = .safe) applicability ∧
    Given (Nullable Quotes f.message) (f.message = none) message ∧
    Given (Listed Edit.Written f.edits) (f.edits = []) edits ∧
    Spread ["applicability", "message", "edits"] [applicability, message, edits] n

/-- Null, empty and safe are what a missing field stands for. -/
def Diagnostic.Written (d : Diagnostic) (n : Node) : Prop :=
  ∃ code start stop fix,
    Given (Nullable Quotes d.code) (d.code = none) code ∧
    d.start.Written start ∧ d.stop.Written stop ∧
    Given (Nullable Fix.Written d.fix) (d.fix = none) fix ∧
    Spread ["code", "message", "location", "end_location", "fix"]
      [code, some (.string d.message), some start, some stop, fix] n

theorem ordinalIntegral (x : UInt32) : (Number.integer x.toNat).Integral := by
  have small := x.toNat_lt
  have bottom : (Nat.pow 2 63 : Int) = 9223372036854775808 := rfl
  have top : (Nat.pow 2 64 : Int) = 18446744073709551616 := rfl
  exact ⟨by omega, by omega⟩

theorem ordinalRead (x : UInt32) : ordinal? (ordinal x) = some x := by
  have fits : (x.toNat : Int) < UInt32.size := Int.ofNat_lt.mpr x.toNat_lt
  have below : ¬(x.toNat : Int) < 0 := by omega
  have positive : (Number.integer x.toNat).numeral.negative = false := by
    rw [spelledNumeral (integerSpells _)]
    exact decide_eq_false below
  rw [ordinal, ordinal?, positive, numeralNumber (ordinalIntegral x)]
  simp only [Bool.false_eq_true, if_false, if_pos fits, Int.toNat_natCast, UInt32.ofNat_toNat]

theorem locationRead {l : Location} {n : Node} (written : l.Written n) :
    Location.ofNode? n = some l := by
  simp only [Location.ofNode?, spreadFields written (by decide) rfl, ordinalRead,
    Option.bind_eq_bind, Option.bind_some]

theorem applicabilityRead (a : Applicability) :
    Applicability.ofNode? (.string a.name) = some a := by
  cases a <;> rfl

theorem editRead {e : Edit} {n : Node} (written : e.Written n) : Edit.ofNode? n = some e := by
  obtain ⟨content, start, stop, filled, starts, stops, spread⟩ := written
  have read : withDefault? "" text? content = some e.content :=
    givenDefault filled (by rintro n rfl; rfl) Eq.symm
  simp only [Edit.ofNode?, spreadFields spread (by decide) rfl, read, locationRead starts,
    locationRead stops, Option.bind_eq_bind, Option.bind_some]

theorem fixRead {f : Fix} {n : Node} (written : f.Written n) : Fix.ofNode? n = some f := by
  obtain ⟨applicability, message, edits, applies, told, changes, spread⟩ := written
  have kind : withDefault? .safe Applicability.ofNode? applicability = some f.applicability :=
    givenDefault applies (by rintro n rfl; exact applicabilityRead _) Eq.symm
  have text : optional? text? message = some f.message :=
    givenOptional told rfl (by rintro m n rfl; rfl)
  have list : withDefault? [] (list? Edit.ofNode?) edits = some f.edits :=
    givenDefault changes (fun n listed => listedList listed fun e n => editRead) Eq.symm
  simp only [Fix.ofNode?, spreadFields spread (by decide) rfl, kind, text, list,
    Option.bind_eq_bind, Option.bind_some]

theorem diagnosticRead {d : Diagnostic} {n : Node} (written : d.Written n) :
    Diagnostic.ofNode? n = some d := by
  obtain ⟨code, start, stop, fix, named, starts, stops, fixed, spread⟩ := written
  have rule : optional? text? code = some d.code :=
    givenOptional named rfl (by rintro c n rfl; rfl)
  have remedy : optional? Fix.ofNode? fix = some d.fix :=
    givenOptional fixed rfl fun f n => fixRead
  simp only [Diagnostic.ofNode?, spreadFields spread (by decide) rfl, rule, remedy,
    locationRead starts, locationRead stops, text?, Option.bind_eq_bind, Option.bind_some]

/-! Writing -/

theorem fieldsToList (ms : Members) :
    ms.fields.toList = ms.toList.map fun m => (some m.1, m.2.node) := by
  match ms with
  | .nil => rfl
  | .cons k v rest =>
    rw [Members.fields, Fields.toList, Members.toList, List.map_cons, fieldsToList rest]

theorem nodesToList (vs : Items) : vs.nodes.toList = vs.toList.map Value.node := by
  match vs with
  | .nil => rfl
  | .cons v rest => rw [Items.nodes, Nodes.toList, Items.toList, List.map_cons, nodesToList rest]

theorem objectSpread {names : List String} {given : List (Option Node)}
    {members : List (String × Value)} (distinct : names.Nodup)
    (same : (members.map fun m => (m.1, m.2.node)).Perm (named names given)) :
    Spread names given (Value.object (.ofList members)).node := by
  have keys := same.map Prod.fst
  rw [List.map_map] at keys
  have apart : (members.map Prod.fst).Nodup :=
    keys.nodup_iff.mpr (distinct.sublist (namedNames names given))
  refine .object ((Members.ofList members).toList.map fun m => (m.1, m.2.node)) [] (by simp) ?_ ?_
  · rw [List.append_nil]
    exact ((Members.ofListPerm apart).map _).trans same
  · rw [fieldsToList, List.map_map]
    rfl

theorem locationWritten (l : Location) : l.Written l.toJson.node :=
  objectSpread (by decide) (.refl _)

theorem editWritten (e : Edit) : e.Written e.toJson.node :=
  ⟨some (.string e.content), e.start.toJson.node, e.stop.toJson.node, rfl, locationWritten _,
    locationWritten _, objectSpread (by decide) (.refl _)⟩

theorem editsWritten (es : List Edit) :
    Listed Edit.Written es (Value.array (.ofList (es.map Edit.toJson))).node := by
  refine ⟨_, rfl, ?_⟩
  rw [nodesToList, Items.toListOfList, List.map_map, List.forall₂_map_right_iff,
    List.forall₂_same]
  exact fun e _ => editWritten e

theorem fixWritten (f : Fix) : f.Written f.toJson.node := by
  obtain ⟨applicability, message, edits⟩ := f
  refine ⟨some (.string applicability.name), message.map fun m => .string m, some _, rfl, ?_,
    editsWritten edits, ?_⟩
  · cases message <;> rfl
  · cases message with
    | none => exact objectSpread (by decide) (.refl _)
    | some m => exact objectSpread (by decide) (.cons _ (.swap ..))

theorem diagnosticWritten (d : Diagnostic) : d.Written d.toJson.node := by
  obtain ⟨code, message, start, stop, fix⟩ := d
  refine ⟨some ((code.map Value.string).getD .null).node, _, _, fix.map fun f => f.toJson.node, ?_,
    locationWritten start, locationWritten stop, ?_, ?_⟩
  · cases code <;> rfl
  · cases fix with
    | none => rfl
    | some f => exact fixWritten f
  · cases fix with
    | none => exact objectSpread (by decide) (.refl _)
    | some f => exact objectSpread (by decide) (.refl _)

/-! Levels -/

theorem objectLegible {depth : Nat} {members : List (String × Value)}
    (legible : ∀ m ∈ members, m.2.Legible Number.Held depth) :
    (Value.object (.ofList members)).Legible Number.Held (depth + 1) := by
  obtain ⟨sorted, all⟩ := ofListKept legible
  exact ⟨Nat.succ_pos depth, sorted, (membersLegible _ _).mpr all⟩

theorem locationLegible (l : Location) (depth : Nat) :
    l.toJson.Legible Number.Held (depth + 1) := by
  refine objectLegible fun m mem => ?_
  rcases List.mem_pair.mp mem with rfl | rfl
  · exact integralHeld (ordinalIntegral l.row)
  · exact integralHeld (ordinalIntegral l.column)

theorem editLegible (e : Edit) (depth : Nat) : e.toJson.Legible Number.Held (depth + 2) := by
  refine objectLegible ?_
  simp only [List.forall_mem_cons]
  exact ⟨trivial, locationLegible e.start depth, locationLegible e.stop depth, nofun⟩

theorem fixLegible (f : Fix) (depth : Nat) : f.toJson.Legible Number.Held (depth + 4) := by
  refine objectLegible ?_
  simp only [List.forall_mem_append, List.forall_mem_cons]
  refine ⟨⟨trivial, ⟨Nat.succ_pos _, ?_⟩, nofun⟩, ?_⟩
  · rw [itemsLegible, Items.toListOfList]
    intro v mem
    obtain ⟨e, -, rfl⟩ := List.mem_map.mp mem
    exact editLegible e depth
  · intro m mem
    obtain ⟨text, -, rfl⟩ := List.mem_map.mp mem
    trivial

theorem diagnosticLegible (d : Diagnostic) (depth : Nat) :
    d.toJson.Legible Number.Held (depth + 5) := by
  refine objectLegible ?_
  simp only [List.forall_mem_append, List.forall_mem_cons]
  refine ⟨⟨?_, trivial, locationLegible d.start _, locationLegible d.stop _, nofun⟩, ?_⟩
  · cases d.code <;> trivial
  · intro m mem
    obtain ⟨f, -, rfl⟩ := List.mem_map.mp mem
    exact fixLegible f depth

/-- A diagnostic is read from what is written for it, and from every other text that spells its
fields. -/
theorem diagnosticsReread (d : Diagnostic) :
    Diagnostic.read? d.toJson.document = some d ∧
      (∃ n, parse? d.toJson.document = some n ∧ d.Written n) ∧
      ∀ text n, parse? text = some n → d.Written n → Diagnostic.read? text = some d := by
  have parsed := parseDocument (diagnosticLegible d 122)
  have every (text : String) (n : Node) (spells : parse? text = some n) (written : d.Written n) :
      Diagnostic.read? text = some d := by
    rw [Diagnostic.read?, spells, Option.bind_eq_bind, Option.bind_some, diagnosticRead written]
  exact ⟨every _ _ parsed (diagnosticWritten d), ⟨_, parsed, diagnosticWritten d⟩, every⟩

def oneNode : Node :=
  .object (.cons (some "row") (ordinal 1) (.cons (some "column") (ordinal 1) .nil))

def twoNode : Node :=
  .object (.cons (some "column") (ordinal 2) (.cons (some "row") (ordinal 1) .nil))

def deletionNode : Node :=
  .object (.cons (some "end_location") twoNode (.cons (some "location") oneNode .nil))

def removalNode : Node :=
  .object (.cons (some "noqa") .null (.cons (some "edits") (.array (.cons deletionNode .nil)) .nil))

def terseNode : Node :=
  .object (.cons (some "fix") removalNode (.cons (some "location") oneNode
    (.cons (some "message") (.string (some "é")) (.cons (some "end_location") twoNode .nil))))

def terseText : String :=
  "\x7b\"fix\":\x7b\"noqa\":null,\"edits\":[\x7b\"end_location\":\x7b\"column\":2,\"row\":1\x7d," ++
  "\"location\":\x7b\"row\":1,\"column\":1\x7d\x7d]\x7d,\"location\":\x7b\"row\":1,\"column\":1\x7d," ++
  "\"message\":\"\\u00e9\",\"end_location\":\x7b\"column\":2,\"row\":1\x7d\x7d"

theorem diagnosticsRereadTerse : Diagnostic.read? terseText =
    some ⟨none, "é", ⟨1, 1⟩, ⟨1, 2⟩, some ⟨.safe, none, [⟨"", ⟨1, 1⟩, ⟨1, 2⟩⟩]⟩⟩ := by
  have parsed : parse? terseText = some terseNode := by decide +kernel
  have starts : Location.Written ⟨1, 1⟩ oneNode := .object _ [] (by simp) (.refl _) rfl
  have stops : Location.Written ⟨1, 2⟩ twoNode := .object
    [("column", ordinal 2), ("row", ordinal 1)] [] (by simp) (.swap ..) rfl
  have deletes : Edit.Written ⟨"", ⟨1, 1⟩, ⟨1, 2⟩⟩ deletionNode :=
    ⟨none, _, _, rfl, starts, stops, .object
      [("end_location", twoNode), ("location", oneNode)] [] (by simp) (.swap ..) rfl⟩
  have removes : Fix.Written ⟨.safe, none, [⟨"", ⟨1, 1⟩, ⟨1, 2⟩⟩]⟩ removalNode :=
    ⟨none, none, some (.array (.cons deletionNode .nil)), rfl, rfl, ⟨_, rfl, .cons deletes .nil⟩,
      .object [("noqa", .null), ("edits", _)] [("noqa", .null)] (by simp) (.swap ..) rfl⟩
  have mixed := (List.perm_append_singleton ("fix", removalNode) [("location", oneNode),
    ("message", .string "é"), ("end_location", twoNode)]).symm.trans (.swap ..)
  exact (diagnosticsReread _).2.2 terseText terseNode parsed
    ⟨none, _, _, some removalNode, rfl, starts, stops, removes, .object _ [] (by simp) mixed rfl⟩

end NotebookTidy.Source

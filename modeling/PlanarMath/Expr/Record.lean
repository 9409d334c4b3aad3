import PlanarMath.Expr.Basic
import PlanarMath.Schema

/-!
# Expressions as JSON

An expression is a record whose tag `node` names its kind; members that are null are left out.  Reading
checks every place and reports every fault.  The arguments of a call are always a tuple, so their record
is known without a tag.
-/

namespace PlanarMath.Expr

open Schema

/-! ## Writing -/

/-- A member for a range, none when there is no range. -/
def rangeMember (key : String) : Option Range → List (String × Json)
  | none => []
  | some r => [(key, r.toJson)]

/-- The ranges of an operator's node. -/
def rangeMembers (range? sign? : Option Range) : List (String × Json) :=
  rangeMember "range" range? ++ rangeMember "internal_range" sign?

mutual

/-- The record of an expression. -/
def toJson : Expr → Json
  | number v r => .object (("node", .text "Number") :: ("value", .ofNumber v) :: rangeMember "range" r)
  | symbol name r =>
    .object (("node", .text "Symbol") :: ("name", .text name) :: rangeMember "range" r)
  | unary op arg r i =>
    .object (("node", .text "Unary") :: ("op", .text op.text) :: ("arg", toJson arg) ::
      rangeMembers r i)
  | binary op args r i =>
    .object (("node", .text "Binary") :: ("op", .text op.text) :: ("args", .array (toJsonAll args)) ::
      rangeMembers r i)
  | tuple items r =>
    .object (("node", .text "Tuple") :: ("items", .array (toJsonAll items)) :: rangeMember "range" r)
  | call target args i r =>
    .object (("node", .text "Call") :: ("target", toJson target) ::
      ("args", .object (("node", .text "Tuple") :: ("items", .array (toJsonAll args)) ::
        rangeMember "range" i)) :: rangeMember "range" r)
  | error r => .object (("node", .text "Error") :: rangeMember "range" r)

/-- The records of a list of expressions. -/
def toJsonAll : List Expr → List Json
  | [] => []
  | e :: es => toJson e :: toJsonAll es

end

/-! ## Reading -/

/-- The range of a record, when it has one. -/
def rangeOf (ms : List (String × Json)) : Checked (Option Range) :=
  optionalField "range" Range.ofJson ms

/-- The range of the sign in a record, when it has one. -/
def signOf (ms : List (String × Json)) : Checked (Option Range) :=
  optionalField "internal_range" Range.ofJson ms

/-- A number from its members. -/
def numberOf (ms : List (String × Json)) : Checked Expr :=
  (both (field "value" Schema.number ms) (rangeOf ms)).map fun (v, r) => number v r

/-- A symbol from its members. -/
def symbolOf (ms : List (String × Json)) : Checked Expr :=
  (both (field "name" fullText ms) (rangeOf ms)).map fun (name, r) => symbol name r

/-- An operation with one operand from its members and its operand. -/
def unaryOf (ms : List (String × Json)) (arg : Checked Expr) : Checked Expr :=
  (both (field "op" (oneOf UnaryOp.ofText?) ms) (both arg (both (rangeOf ms) (signOf ms)))).map
    fun (op, arg, r, i) => unary op arg r i

/-- An operation from its members and its operands, whose number has to suit the operator. -/
def binaryOf (ms : List (String × Json)) (args : Checked (List Expr)) : Checked Expr :=
  (both (field "op" (oneOf BinaryOp.ofText?) ms) (both args (both (rangeOf ms) (signOf ms)))).bind
    fun (op, args, r, i) =>
      if op.allows args.length then .ok (binary op args r i) else fault (.broken (.operandCount op))

/-- A call from its members, its target and its arguments. -/
def callOf (ms : List (String × Json)) (target : Checked Expr)
    (args : Checked (List Expr × Option Range)) : Checked Expr :=
  (both target (both args (rangeOf ms))).map fun (target, (args, i), r) => call target args i r

/-- The tag of a record whose kind is known, where it may be missing. -/
def knownTag (tag : String) (ms : List (String × Json)) : Checked Unit :=
  match Json.member? "node" ms with
  | none => .ok ()
  | some (.text s) => if s = tag then .ok () else inside (.key "node") (fault .wrongTag)
  | some _ => inside (.key "node") (fault .wrongTag)

/-- A list of at least so many items. -/
def atLeast {α : Type} (count : Nat) (items : Checked (List α)) : Checked (List α) :=
  items.bind fun xs => if xs.length < count then fault .shortList else .ok xs

mutual

/-- The expression of a tagged record. -/
def ofJson : Json → Checked Expr
  | .object ms =>
    match Json.member? "node" ms with
    | none => fault .noTag
    | some (.text "Number") => inside (.key "Number") (numberOf ms)
    | some (.text "Symbol") => inside (.key "Symbol") (symbolOf ms)
    | some (.text "Unary") => inside (.key "Unary") (unaryOf ms (inside (.key "arg") (nodeAt "arg" ms)))
    | some (.text "Binary") =>
      inside (.key "Binary") (binaryOf ms (inside (.key "args") (atLeast 2 (nodesAt "args" ms))))
    | some (.text "Tuple") =>
      inside (.key "Tuple") ((both (inside (.key "items") (atLeast 1 (nodesAt "items" ms)))
        (rangeOf ms)).map fun (items, r) => tuple items r)
    | some (.text "Call") =>
      inside (.key "Call") (callOf ms (inside (.key "target") (nodeAt "target" ms))
        (inside (.key "args") (groupAt "args" ms)))
    | some (.text "Error") => inside (.key "Error") ((rangeOf ms).map error)
    | some _ => fault .unknownTag
  | _ => fault .notTagged

/-- The expression at the first member of a name, which has to be there. -/
def nodeAt (key : String) : List (String × Json) → Checked Expr
  | [] => fault .missing
  | (k, v) :: ms => if k = key then ofJson v else nodeAt key ms

/-- The expressions at the first member of a name, which has to be there. -/
def nodesAt (key : String) : List (String × Json) → Checked (List Expr)
  | [] => fault .missing
  | (k, v) :: ms => if k = key then nodesOf v else nodesAt key ms

/-- The expressions of a list. -/
def nodesOf : Json → Checked (List Expr)
  | .array items => itemsOf 0 items
  | _ => fault .notList

/-- The expressions of the items from a position on. -/
def itemsOf (i : Nat) : List Json → Checked (List Expr)
  | [] => .ok []
  | v :: vs =>
    (both (inside (.index i) (ofJson v)) (itemsOf (i + 1) vs)).map fun (e, es) => e :: es

/-- The items and the range of the tuple at the first member of a name, which has to be there. -/
def groupAt (key : String) : List (String × Json) → Checked (List Expr × Option Range)
  | [] => fault .missing
  | (k, v) :: ms => if k = key then groupOf v else groupAt key ms

/-- The items and the range of a tuple. -/
def groupOf : Json → Checked (List Expr × Option Range)
  | .object ms =>
    (both (knownTag "Tuple" ms) (both (inside (.key "items") (atLeast 1 (nodesAt "items" ms)))
      (rangeOf ms))).map (·.2)
  | _ => fault .notRecord

end

end PlanarMath.Expr

import Db8.Bytes.SortedSet
import Db8.Core.Base64Sizes
import Db8.Core.JsonText
import Db8.Core.PropMap
import Db8.Db.Query

/-!
# Queries as objects

`MojDbQuery::fromObject`, which reads a query clause by clause, and `toObject`, which writes one. A
property with a distinct value is selected and ordered by, whatever else the object asks for.
-/

set_option autoImplicit false

namespace Db8.Core.MojObject

open Db8.Bytes

/-- `stringValue`: a string as it is, any other value as JSON. -/
def stringValue : MojObject → MojString
  | .string val => val
  | obj => MojJsonParser.cString obj.toJson

/-- `empty`, for which only objects and arrays hold something. -/
def containerSize : MojObject → Nat
  | .object props => props.length
  | .array vals => vals.length
  | _ => 0

/-- What `at` gives for the indexes from 0 on. -/
def elements : MojObject → List MojObject
  | .array vals => vals
  | _ => []

def getString (obj : MojObject) (key : MojString) : Option MojString :=
  (obj.get key).map stringValue

def getRequired (obj : MojObject) (key : MojString) : Except MojErr MojObject :=
  match obj.get key with
  | none => .error (.requiredPropNotFound (MojObjectWriter.charBytes key))
  | some val => .ok val

end Db8.Core.MojObject

namespace Db8.Db

open Db8.Bytes
open Db8.Core

structure SelectQuery where
  query : MojDbQuery
  selectProps : SortedSet MojString

namespace MojDbQuery

def selectKey : MojString := chars "select".toList

def fromKey : MojString := chars "from".toList

def whereKey : MojString := chars "where".toList

def filterKey : MojString := chars "filter".toList

def orderByKey : MojString := chars "orderBy".toList

def distinctKey : MojString := chars "distinct".toList

def descKey : MojString := chars "desc".toList

def includeDeletedKey : MojString := chars "incDel".toList

def limitKey : MojString := chars "limit".toList

def pageKey : MojString := chars "page".toList

def propKey : MojString := chars "prop".toList

def opKey : MojString := chars "op".toList

def valKey : MojString := chars "val".toList

def collateKey : MojString := chars "collate".toList

/-- `s_ops`, in the order of the enumeration from `OpEq` on. -/
def ops : List (MojString × CompOp) :=
  [(chars ['='], .eq), (chars ['!', '='], .notEq), (chars ['<'], .lessThan),
    (chars ['<', '='], .lessThanEq), (chars ['>'], .greaterThan),
    (chars ['>', '='], .greaterThanEq), (chars ['%'], .prefixOf), (chars ['?'], .search),
    (chars ['%', '%'], .subString)]

def opCode : CompOp → Nat
  | .none => 0
  | .eq => 1
  | .notEq => 2
  | .lessThan => 3
  | .lessThanEq => 4
  | .greaterThan => 5
  | .greaterThanEq => 6
  | .prefixOf => 7
  | .search => 8
  | .subString => 9

def stringToOp (str : MojString) : Except MojErr CompOp :=
  match ops.find? fun op => decide (op.1 = str) with
  | some op => .ok op.2
  | none => .error .dbInvalidQueryOp

def opToString (op : CompOp) : Option MojString :=
  if op = .none then none else (ops[opCode op - 1]?).map Prod.fst

/-- `s_collStrings`. -/
def collStrings : List (MojString × MojDbCollationStrength) :=
  [(chars "primary".toList, .primary), (chars "secondary".toList, .secondary),
    (chars "tertiary".toList, .tertiary), (chars "quaternary".toList, .quaternary),
    (chars "identical".toList, .identical), (chars "invalid".toList, .invalid)]

def collationToString (coll : MojDbCollationStrength) : MojString :=
  ((collStrings.find? fun info => decide (info.2 = coll)).map Prod.fst).getD
    (chars "invalid".toList)

def collationFromString (str : MojString) : Except MojErr MojDbCollationStrength :=
  match collStrings.find? fun info => decide (info.1 = str) with
  | none => .error .dbInvalidCollation
  | some info => if info.2 = .invalid then .error .dbInvalidCollation else .ok info.2

structure Clause where
  prop : MojString
  op : CompOp
  val : MojObject
  coll : MojDbCollationStrength

/-- The body of the loop in `addClauses`, up to the call of `addClause`. -/
def readClause (obj : MojObject) : Except MojErr Clause := do
  let prop ← obj.getRequired propKey
  let opStr ← obj.getRequired opKey
  let op ← stringToOp opStr.stringValue
  let val ← obj.getRequired valKey
  let coll ←
    match obj.getString collateKey with
    | none => .ok .invalid
    | some str => collationFromString str
  .ok ⟨prop.stringValue, op, val, coll⟩

def addClauses (map : WhereMap) : List MojObject → Except MojErr WhereMap
  | [] => .ok map
  | obj :: rest => do
    let clause ← readClause obj
    let map ← map.addClause clause.prop clause.op clause.val clause.coll
    addClauses map rest

def readClauses (obj : MojObject) (key : MojString) : Except MojErr WhereMap :=
  match obj.get key with
  | none => .ok WhereMap.empty
  | some array => addClauses WhereMap.empty array.elements

def readSelect (obj : MojObject) : Except MojErr (SortedSet MojString) :=
  match obj.get selectKey with
  | none => .ok SortedSet.empty
  | some array =>
    if array.containerSize = 0 then
      .error (.dbInvalidQuery "db: select clause but no selected properties")
    else .ok (SortedSet.empty.putAll (array.elements.map MojObject.stringValue))

/-- The first part of `fromObject`: the distinct property, the order and the select set. -/
def readOrder (obj : MojObject) :
    Except MojErr (MojString × MojString × SortedSet MojString) :=
  match obj.getString distinctKey with
  | some str => .ok (str, str, SortedSet.empty.put str)
  | none => do
    let select ← readSelect obj
    .ok ([], (obj.getString orderByKey).getD [], select)

def readLimit (obj : MojObject) : Except MojErr MojUInt32 :=
  match obj.get limitKey with
  | none => .ok limitDefault
  | some val =>
    if val.intValue.toInt < 0 then .error (.dbInvalidQuery "db: negative query limit")
    else .ok (val.intValue.setWidth 32)

/-- `Page::fromObject`. -/
def readPage (obj : MojObject) : Except MojErr MojDbKey :=
  match obj.get pageKey with
  | none => .ok []
  | some val => MojBase64.base64Decode (MojObjectWriter.charBytes val.stringValue)

def getBool (obj : MojObject) (key : MojString) : Bool :=
  ((obj.get key).map MojObject.boolValue).getD false

/-- `fromObject` of a query that has just been made. -/
def fromObject (obj : MojObject) : Except MojErr SelectQuery := do
  let (distinct, order, selectProps) ← readOrder obj
  let fromType ← obj.getRequired fromKey
  let whereClauses ← readClauses obj whereKey
  let filterClauses ← readClauses obj filterKey
  let limit ← readLimit obj
  let page ← readPage obj
  let query : MojDbQuery :=
    ⟨fromType.stringValue, whereClauses, filterClauses, page, order, distinct, limit,
      getBool obj descKey⟩
  let query ← if getBool obj includeDeletedKey then query.includeDeleted else .ok query
  .ok ⟨query, selectProps⟩

/-- `appendClause`. -/
def clauseObject (clause : Clause) : Except MojErr MojObject :=
  match opToString clause.op with
  | none => .error .dbInvalidQueryOp
  | some opStr =>
    .ok (.object (MojObjectBuilder.putAll
      ([(propKey, .string clause.prop), (opKey, .string opStr), (valKey, clause.val)] ++
        if clause.coll = .invalid then []
        else [(collateKey, .string (collationToString clause.coll))]) []))

def entryClauses (entry : MojString × WhereClause) : List Clause :=
  (if entry.2.lowerOp = .none then []
    else [⟨entry.1, entry.2.lowerOp, entry.2.lowerVal.getD .null, entry.2.collation⟩]) ++
  if entry.2.upperOp = .none then []
  else [⟨entry.1, entry.2.upperOp, entry.2.upperVal.getD .null, entry.2.collation⟩]

/-- `appendClauses`. -/
def clausesObject (map : WhereMap) : Except MojErr MojObject := do
  let objs ← (map.entries.flatMap entryClauses).mapM clauseObject
  .ok (.array objs)

end MojDbQuery

namespace SelectQuery

open MojDbQuery

/-- The properties that `toObject` gives its visitor, in this order. Where there are filter clauses
it writes the where clauses again. -/
def toProps (select : SelectQuery) : Except MojErr (List (MojString × MojObject)) := do
  let clauses ← clausesObject select.query.whereClauses
  let query := select.query
  .ok ((if select.selectProps.elems = [] then []
      else [(selectKey, .array (select.selectProps.elems.map .string))]) ++
    ([(fromKey, .string query.fromType)] ++
    ((if query.whereClauses.entries = [] then [] else [(whereKey, clauses)]) ++
    ((if query.filterClauses.entries = [] then [] else [(whereKey, clauses)]) ++
    ((if query.order = [] then [] else [(orderByKey, .string query.order)]) ++
    ((if query.distinct = [] then [] else [(distinctKey, .string query.distinct)]) ++
    ((if query.desc then [(descKey, .bool true)] else []) ++
    ((if query.limit = limitDefault then [] else [(limitKey, .int (query.limit.setWidth 64))]) ++
    (if query.page = [] then []
      else [(pageKey, .string (MojBase64.encode false query.page))])))))))))

def toObject (select : SelectQuery) : Except MojErr MojObject := do
  let props ← select.toProps
  .ok (.object (MojObjectBuilder.putAll props []))

end SelectQuery

end Db8.Db

import Db8.Bytes.Lex

/-!
# Results

The error codes a modelled function can return. `MojAssert` aborts the process in a checked build;
a failed assertion is kept apart as an error of its own, carrying the condition asserted.
-/

set_option autoImplicit false

namespace Db8.Core

open Db8.Bytes

inductive JsonErrCode where
  | unexpected
  | null
  | comment
  | escape
  | bool
  | int
  | array
  | propName
  | valueSep
  | maxDepth
  | eof
deriving DecidableEq, Repr

inductive MojErr where
  | assertFailed (condition : String)
  | requiredPropNotFound (key : ByteString)
  | notOpen
  | invalidArg (msg : String)
  | dbInvalidBatch
  | dbInvalidCaller
  | dbInvalidIndex (msg : String)
  | dbInvalidQuery (msg : String)
  | dbInvalidQueryOp
  | dbInvalidQueryOpCombo
  | dbInvalidCollation
  | dbInvalidQueryCollationMismatch
  | dbInvalidPermissions (msg : String)
  | dbInconsistentIndex
  | dbInvalidToken
  | dbInvalidKindToken
  | dbHeaderVersionMismatch
  | dbKindNotRegistered
  | dbKindNotSpecified
  | dbKindHasSubKinds
  | dbPermissionDenied
  | dbRevisionMismatch
  | dbRevNotSpecified
  | dbIdRequired
  | dbObjectNotFound
  | dbPutNotAllowed
  | dbAccessDenied
  | dbBackupFull
  | dbDeadlock
  | dbMaxRetriesExceeded
  | internalIndexOnDel
  | dbQuotaExceeded
  | dbWatcherNotRegistered
  | dbVerificationFailed
  | internalIndexOnFind
  | invalidBase64Data
  | insufficientBuf
  | unexpectedEof
  | jsonParse (code : JsonErrCode) (msg : String) (line col : Nat)
  | objectReaderUnexpectedMarker
  | typeMismatch
  | valueOutOfRange (key : ByteString)
  | schemaValidation
deriving DecidableEq, Repr

def mojAssert (condition : Bool) (text : String) : Except MojErr Unit :=
  if condition then .ok () else .error (.assertFailed text)

theorem except_bind_ok {α β : Type} {first : Except MojErr α} {next : α → Except MojErr β} {out : β}
    (ran : first >>= next = .ok out) : ∃ val, first = .ok val ∧ next val = .ok out := by
  cases first with
  | error err => cases ran
  | ok val => exact ⟨val, rfl, ran⟩

end Db8.Core

import Db8.Core.JsonWriter

/-!
# Service messages

The message of a request as its handler sees it: the writer of the reply, and what was sent. A
reply takes the text of the writer and resets it, so whatever is written later starts a new text.
-/

set_option autoImplicit false

namespace Db8.Core

structure MojServiceMessage where
  writer : MojJsonWriter
  /-- The texts sent so far, the first one first. -/
  replies : List (List JsonToken)
  /-- A slot is connected to the cancel signal. -/
  cancelConnected : Bool
  subscribed : Bool
deriving DecidableEq

namespace MojServiceMessage

def returnValueKey : MojString := chars "returnValue".toList

def errorCodeKey : MojString := chars "errorCode".toList

def errorTextKey : MojString := chars "errorText".toList

def create : MojServiceMessage := ⟨MojJsonWriter.create, [], false, false⟩

def numReplies (message : MojServiceMessage) : Nat := message.replies.length

def hasData (message : MojServiceMessage) : Bool := !message.writer.json.isEmpty

def write (message : MojServiceMessage) (calls : List VisitorCall) : MojServiceMessage :=
  { message with writer := message.writer.write calls }

def resetWriter (message : MojServiceMessage) : MojServiceMessage :=
  { message with writer := message.writer.reset }

def notifyCancel (message : MojServiceMessage) : Except MojErr MojServiceMessage := do
  mojAssert (message.numReplies = 0) "m_numReplies == 0"
  .ok { message with cancelConnected := true }

/-- The first reply enables the subscription if there is something to cancel, and removes it if
there is nothing. -/
def reply (message : MojServiceMessage) : Except MojErr MojServiceMessage := do
  mojAssert message.hasData "hasData()"
  .ok { message with
    writer := message.writer.reset
    replies := message.replies ++ [message.writer.json]
    subscribed := if message.numReplies = 0 then message.cancelConnected else message.subscribed }

def replyObject (message : MojServiceMessage) (payload : MojObject) :
    Except MojErr MojServiceMessage :=
  (message.write payload.visit).reply

def errorObject (code : MojInt64) (text : MojString) : MojObject :=
  (((MojObject.object []).put returnValueKey (.bool false)).put errorCodeKey (.int code)).put
    errorTextKey (.string text)

def replyError (message : MojServiceMessage) (code : MojInt64) (text : MojString) :
    Except MojErr MojServiceMessage :=
  message.resetWriter.replyObject (errorObject code text)

@[simp] theorem write_replies (message : MojServiceMessage) (calls : List VisitorCall) :
    (message.write calls).replies = message.replies := rfl

theorem write_append (message : MojServiceMessage) (front back : List VisitorCall) :
    message.write (front ++ back) = (message.write front).write back := by
  simp [write]

theorem reply_ok {message after : MojServiceMessage} (replied : message.reply = .ok after) :
    after.replies = message.replies ++ [message.writer.json] := by
  unfold reply mojAssert at replied
  cases data : message.hasData with
  | true =>
    rw [data, if_pos rfl] at replied
    cases replied
    rfl
  | false =>
    rw [data, if_neg Bool.false_ne_true] at replied
    cases replied

theorem reply_of_data {message : MojServiceMessage} (data : message.hasData = true) :
    ∃ after, message.reply = .ok after := by
  unfold reply mojAssert
  rw [if_pos data]
  exact ⟨_, rfl⟩

theorem replyError_ok (message : MojServiceMessage) (code : MojInt64) (text : MojString) :
    ∃ after, message.replyError code text = .ok after ∧
      after.replies = message.replies ++ [(errorObject code text).json] := by
  have written : (message.resetWriter.write (errorObject code text).visit).writer.json =
      (errorObject code text).json := by
    simp [write, resetWriter, MojJsonWriter.write_visit, MojJsonWriter.append,
      MojJsonWriter.reset, MojJsonWriter.create, separator]
  have data : (message.resetWriter.write (errorObject code text).visit).hasData = true := by
    unfold hasData
    rw [written]
    cases text : (errorObject code text).json with
    | nil => exact absurd text (MojObject.json_ne_nil _)
    | cons token rest => rfl
  rcases reply_of_data data with ⟨after, replied⟩
  refine ⟨after, replied, ?_⟩
  rw [reply_ok replied, written]
  rfl

end MojServiceMessage

end Db8.Core

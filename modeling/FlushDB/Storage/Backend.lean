import FlushDB.Lib.ObjectStore
import FlushDB.Lib.Run
import FlushDB.Types.Key
import Mathlib.Data.String.Basic

/-!
The storage trait. What it documents of its calls is stated over a store of objects; a backend may
also fail a call or not answer it, and has then done the whole of it or nothing.
-/

namespace FlushDB
open Lib

abbrev Objects := ObjectStore String (List UInt8)

inductive StorageCall where
  | put (key : String) (value : List UInt8)
  | get (key : String)
  | getRange (key : String) (offset length : Nat)
  | delete (key : String)
  | conditionalPut (key : String) (value : List UInt8)
  | listPrefix (start : String)

inductive StorageReply where
  | done
  | content (bytes : List UInt8)
  | keys (keys : List String)

/-- Why a call is refused. -/
inductive Refusal where
  | missing (key : String)
  | taken
  | beyond

namespace Refusal

/-- The errors for it. -/
def Told : Refusal → FlushError → Prop
  | .missing key, e => e = .notFound key
  | .taken, e => ∃ message, e = .preconditionFailed message
  | .beyond, e => (∃ message, e = .io message) ∨ ∃ message, e = .invalidArgument message

end Refusal

namespace StorageCall

/-- `StorageBackend`: the reply and the objects afterwards. -/
def documented (objects : Objects) : StorageCall → Except Refusal (StorageReply × Objects)
  | .put key value => .ok (.done, objects.put key value)
  | .get key =>
    match objects.get key with
    | none => .error (.missing key)
    | some value => .ok (.content value, objects)
  | .getRange key offset length =>
    match objects.get key with
    | none => .error (.missing key)
    | some value =>
      if length = 0 then .ok (.content [], objects)
      else if value.length ≤ offset then .error .beyond
      else .ok (.content ((value.drop offset).take length), objects)
  | .delete key => .ok (.done, objects.delete key)
  | .conditionalPut key value =>
    if (objects.get key).isSome then .error .taken else .ok (.done, objects.put key value)
  | .listPrefix start =>
    .ok (.keys (objects.keys.filter fun key => start.toList.isPrefixOf key.toList), objects)

/-- The call answers and leaves what is documented. -/
inductive Answered (objects : Objects) (call : StorageCall) :
    Except (Option FlushError) StorageReply → Objects → Prop
  | served {reply : StorageReply} {after : Objects}
      (documented : call.documented objects = .ok (reply, after)) :
      Answered objects call (.ok reply) after
  | refused {refusal : Refusal} {e : FlushError}
      (documented : call.documented objects = .error refusal) (told : refusal.Told e) :
      Answered objects call (.error (some e)) objects

/-- An I/O error, or no answer at all. -/
def Uncertain (e : Option FlushError) : Prop := ∀ err ∈ e, ∃ message, err = .io message

/-- What a call may answer and leave, where something may go wrong. -/
inductive Promised (objects : Objects) (call : StorageCall) :
    Except (Option FlushError) StorageReply → Objects → Prop
  | answered {answer : Except (Option FlushError) StorageReply} {after : Objects}
      (answers : Answered objects call answer after) :
      Promised objects call answer after
  | undone {e : Option FlushError} (uncertain : Uncertain e) :
      Promised objects call (.error e) objects
  | done {e : Option FlushError} {reply : StorageReply} {after : Objects} (uncertain : Uncertain e)
      (documented : call.documented objects = .ok (reply, after)) :
        Promised objects call (.error e) after

end StorageCall

/-- A backend's call: what is asked, and whether nothing disturbs it. Then it answers as
documented. -/
def StorageSpec (objects : Objects) (call : StorageCall × Bool)
    (answer : Except (Option FlushError) StorageReply) (after : Objects) :
    Prop :=
  call.1.Promised objects answer after ∧ (call.2 = true → call.1.Answered objects answer after)

theorem StorageSpec.of_answered {objects after : Objects} {call : StorageCall} {undisturbed : Bool}
    {answer : Except (Option FlushError) StorageReply} (h : call.Answered objects answer after) :
    StorageSpec objects (call, undisturbed) answer after := ⟨.answered h, fun _ => h⟩

end FlushDB

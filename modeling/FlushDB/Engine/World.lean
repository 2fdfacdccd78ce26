import FlushDB.Engine.Recovery
import FlushDB.Lib.Run

/-!
Runs of one engine over its storage: the public calls, re-opening, and crashes at any point.
The ghost part of the state lists the acknowledged writes.
-/

namespace FlushDB
open Lib

/-- An acknowledged write: its entry as the engine made it, its number in the log, and the number
the caller was told, if any. -/
structure Acked where
  entry : MemtableEntry
  walSequence : Nat
  reported : Option Nat

namespace World

/-- Numbers the entries of one commit. -/
def ackedFrom (reported : Option Nat) : Nat → List MemtableEntry → List Acked
  | _, [] => []
  | walSequence, entry :: rest =>
    ⟨entry, walSequence, reported⟩ :: ackedFrom reported (walSequence + 1) rest

end World

/-- `engine` is the open engine; `stored` is what is left when there is none. `writes` counts the
writes made so far, which names them. -/
structure World where
  stored : Stored := {}
  engine : Option Engine := none
  writes : Nat := 0
  acked : List Acked := []

namespace World

def disk (w : World) : Stored :=
  match w.engine with
  | some s => s.toStored
  | none => w.stored

inductive Label where
  | openEngine (nowMs : Nat) (fault : Option OpenFault)
  | put (recordId itemKey value metadata : Bytes) (idempotencyToken : Option IdempotencyToken)
      (draw : WriteDraw)
  | putBatch (recordId : Bytes) (items : List PutBatchItem) (pressured late : Bool)
      (draws : Nat → Engine.ItemDraw)
  | delete (recordId itemKey : Bytes) (draw : WriteDraw)
  | deleteRange (recordId startKey endKey : Bytes) (draw : WriteDraw)
  | maybeFlush (draw : FlushDraw)
  | runMaintenance (aged : Bool) (draw : Nat → FlushDraw)
  | maybeCompact (draw : Nat → CompactionDraw)
  | close (draw : Nat → FlushDraw)
  /-- The process ends, with these entries of an unfinished append in the log. -/
  | crash (torn : List MemtableEntry)

/-- Names the entries from `origin` on. -/
def named (origin : Nat) : List MemtableEntry → List MemtableEntry
  | [] => []
  | e :: rest => { e with origin } :: named (origin + 1) rest

section
variable (env : Env)

/-- The entries a write makes in this state; none when it is refused. -/
def prepared (w : World) (s : Engine) : Label → List MemtableEntry
  | .put recordId itemKey value metadata token draw =>
    ((Engine.preparePut env w.writes recordId itemKey value metadata token draw.pressured s).toOption).toList
  | .putBatch recordId items pressured _ _ =>
    ((Engine.prepareBatch env w.writes recordId items pressured s).toOption).getD []
  | .delete recordId itemKey draw =>
    ((Engine.prepareDelete env w.writes recordId itemKey draw.pressured s).toOption).toList
  | .deleteRange recordId startKey endKey draw =>
    ((Engine.prepareDeleteRange env w.writes recordId startKey endKey draw.pressured s).toOption).toList
  | _ => []

/-- After a call that wrote `entries` and reported to its caller, or failed. -/
def wrote (w : World) (s : Engine) (entries : List MemtableEntry)
    (result : FlushResult (Option Nat)) (s' : Engine) : World :=
  { w with
    engine := some s'
    writes := w.writes + entries.length
    acked := match result with
      | .ok reported => w.acked ++ ackedFrom reported s.walManager.writer.nextSequenceNumber entries
      | .error _ => w.acked }

def step (w : World) : Label → Option World
  | .openEngine nowMs fault =>
    match w.engine with
    | some _ => none
    | none =>
      match Engine.openStored env nowMs fault w.stored with
      | (.error _, stored) => some { w with stored }
      | (.ok s, stored) => some { w with stored, engine := some s }
  | .crash torn =>
    w.engine.map fun s =>
      let logged := (named w.writes torn).map fun e =>
        WalEntry.fromMemtableEntry e (Bytes.ofString env.config.ns)
      let writer := s.walManager.writer
      { w with
        engine := none
        stored :=
          { s.toStored with
            wal := WalWriter.writeEntries s.wal writer.currentSegment
              (WalWriter.assign writer.nextSequenceNumber logged) }
        writes := w.writes + torn.length }
  | label@(.put recordId itemKey value metadata token draw) =>
    w.engine.map fun s =>
      let (result, s') := Engine.put env w.writes recordId itemKey value metadata token draw s
      w.wrote s (prepared env w s label) (result.map some) s'
  | label@(.putBatch recordId items pressured late draws) =>
    w.engine.map fun s =>
      let (result, s') := Engine.putBatch env w.writes recordId items pressured late draws s
      w.wrote s (prepared env w s label) (result.map fun _ => none) s'
  | label@(.delete recordId itemKey draw) =>
    w.engine.map fun s =>
      let (result, s') := Engine.delete env w.writes recordId itemKey draw s
      w.wrote s (prepared env w s label) (result.map some) s'
  | label@(.deleteRange recordId startKey endKey draw) =>
    w.engine.map fun s =>
      let (result, s') := Engine.deleteRange env w.writes recordId startKey endKey draw s
      w.wrote s (prepared env w s label) (result.map some) s'
  | .maybeFlush draw =>
    w.engine.map fun s => { w with engine := some (Engine.maybeFlush env draw s).2 }
  | .runMaintenance aged draw =>
    w.engine.map fun s => { w with engine := some (Engine.runMaintenance env aged draw s).2 }
  | .maybeCompact draw =>
    w.engine.map fun s => { w with engine := some (Engine.maybeCompact env draw s).2 }
  | .close draw => w.engine.map fun s => { w with engine := some (Engine.close env draw s).2 }

end

end World

end FlushDB

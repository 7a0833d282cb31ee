import Libobjc2.Common.LinkedList
import Libobjc2.Common.Run
import Libobjc2.Dispatch.Classes

/-!
# The `+initialize` protocol

`objc_send_initialize` (src/dispatch/dtable.c, lines 792–956) and `dtable_for_class`
(src/internal/dispatch/dtable.h, lines 61–107), called by any number of threads on the classes of a
fixed hierarchy. Every acquisition of a lock, every test of a flag and every access to the list of
look-aside entries is a step of its own, and the steps of the calls interleave.

A lock is recursive: it is held by the calls that are between its acquisition and its release,
and can be acquired when these are calls of the same thread. `Pc.locks` lists what a call holds. A
release takes place with the step before it or after it.

Classes are resolved. Which table `create_dtable_for_class` returns and whether `+initialize` is
found in it is left open, as is what a `+initialize` method does: while it runs, its thread may make
further calls.
-/

namespace Libobjc2.Dispatch.Initialize

open Libobjc2.Common

abbrev Thread := ℕ

/-- The address of a table. -/
abbrev TableRef := ℕ

/-- The superclass and the `isa` of the classes. -/
structure Hierarchy where
  superClass : Class → Option Class
  isa : Class → Class

/-- `runtime_mutex`, `initialize_lock`, and the locks of `objc_sync_enter`. -/
inductive Lock where
  | runtime
  | initializeLock
  | object (cls : Class)
deriving DecidableEq, Repr

/-- A look-aside entry on the stack of a call: `meta_buffer` or `buffer`. -/
structure Node where
  call : ℕ
  isMeta : Bool
deriving DecidableEq, Repr

/-- `InitializingDtable`. -/
structure Entry where
  owner : Class
  dtable : TableRef
  next : Option Node
deriving DecidableEq, Repr

/-- What a call does next. From `start` to `leave` for `objc_send_initialize`, from `look` to `syncExit`
    for `dtable_for_class`. -/
inductive Pc where
  | start
  /-- The superclass is being initialised. -/
  | afterSuper
  | lockRuntime
  | test
  /-- The flag is set: wait for the lock of the metaclass, and return. -/
  | wait
  | waited
  | enter
  | lockRuntimeAgain
  | lockInitialize
  | testAgain
  /-- The flag was set while the call waited for the locks. -/
  | bail
  | setFlags (skipMeta : Bool)
  | create (skipMeta : Bool)
  | created (skipMeta : Bool) (dtable metaDtable : TableRef)
  | install (skipMeta : Bool) (dtable metaDtable : TableRef)
  | insert (dtable metaDtable : TableRef)
  | inserted
  /-- About to call `+initialize`. -/
  | call
  /-- Inside `+initialize`. -/
  | running
  | remove
  | unlink
  | removed
  | leave
  | look
  | lookLock
  | search
  | syncEnter (entry : Node)
  | syncExit (entry : Node)
deriving DecidableEq, Repr

/-- The locks that a call holds. -/
def Pc.locks (H : Hierarchy) (cls : Class) : Pc → List Lock
  | .test => [.runtime]
  | .waited | .lockRuntimeAgain | .bail | .inserted | .call | .running | .remove | .leave =>
    [.object (H.isa cls)]
  | .lockInitialize => [.object (H.isa cls), .runtime]
  | .testAgain | .setFlags _ | .create _ | .created .. => [.object (H.isa cls), .runtime, .initializeLock]
  | .install .. | .insert .. | .unlink | .removed => [.object (H.isa cls), .initializeLock]
  | .search => [.initializeLock]
  | .syncExit _ => [.object cls]
  | _ => []

/-- A call in progress. -/
structure Call where
  thread : Thread
  cls : Class
  pc : Pc
deriving DecidableEq, Repr

/-- * `dtable`: the installed tables, `none` for the uninstalled one;
    * `entry`, `temporaryDtables`: the look-aside entries and the head of their list;
    * `stack`: the calls of a thread, the innermost first;
    * `begun`: the classes whose `+initialize` was called, in that order. -/
structure State where
  initialized : Class → Bool
  dtable : Class → Option TableRef
  entry : Node → Entry
  temporaryDtables : Option Node
  call : ℕ → Option Call
  nextCall : ℕ
  stack : Thread → List ℕ
  begun : List Class

namespace State

variable (H : Hierarchy)

/-- No call of another thread holds the lock. -/
def Free (σ : State) (L : Lock) (t : Thread) : Prop :=
  ∀ j < σ.nextCall, ∀ c ∈ σ.call j, L ∈ c.pc.locks H c.cls → c.thread = t

instance (σ : State) (L : Lock) (t : Thread) : Decidable (σ.Free H L t) :=
  inferInstanceAs (Decidable (∀ j < σ.nextCall, ∀ c ∈ σ.call j, _ → _))

def setPc (σ : State) (i : ℕ) (c : Call) (pc : Pc) : State :=
  { σ with call := Function.update σ.call i (some { c with pc }) }

/-- A new call on the stack of a thread. -/
def push (σ : State) (t : Thread) (cls : Class) (pc : Pc) : State :=
  { σ with
    call := Function.update σ.call σ.nextCall (some ⟨t, cls, pc⟩)
    nextCall := σ.nextCall + 1
    stack := Function.update σ.stack t (σ.nextCall :: σ.stack t) }

/-- The innermost call of a thread returns. -/
def pop (σ : State) (i : ℕ) (c : Call) : State :=
  { σ with
    call := Function.update σ.call i none
    stack := Function.update σ.stack c.thread (σ.stack c.thread).tail }

/-- Acquire a lock and go on at `pc`. -/
def acquire (σ : State) (i : ℕ) (c : Call) (L : Lock) (pc : Pc) : Option State :=
  if σ.Free H L c.thread then some (σ.setPc i c pc) else none

/-- The entries from the head of the list. -/
def entries (σ : State) : List Node :=
  follow (fun n => (σ.entry n).next) (2 * σ.nextCall) σ.temporaryDtables

/-- The insertion into the list (dtable.c, lines 940–943). -/
def insertDtables (σ : State) (i : ℕ) (cls : Class) (dtable metaDtable : TableRef) : State :=
  let buffer : Node := ⟨i, false⟩
  let metaBuffer : Node := ⟨i, true⟩
  { σ with
    entry := Function.update (Function.update σ.entry buffer ⟨cls, dtable, σ.temporaryDtables⟩) metaBuffer
      ⟨H.isa cls, metaDtable, some buffer⟩
    temporaryDtables := some metaBuffer }

/-- The first entry whose successor has the given owner (dtable.c, lines 808–812). -/
def previous (σ : State) (owner : Class) : Option Node :=
  σ.entries.find? fun prev => (σ.entry prev).next.any fun n => (σ.entry n).owner = owner

/-- `remove_dtable` (dtable.c, lines 797–818) under `initialize_lock`. -/
def removeDtable (σ : State) (i : ℕ) : State :=
  let metaBuffer : Node := ⟨i, true⟩
  match (σ.entry metaBuffer).next with
  | none => σ
  | some buffer =>
    let σ := { σ with
      dtable := Function.update (Function.update σ.dtable (σ.entry metaBuffer).owner
        (some (σ.entry metaBuffer).dtable)) (σ.entry buffer).owner (some (σ.entry buffer).dtable) }
    let next := (σ.entry buffer).next
    if σ.temporaryDtables = some metaBuffer then { σ with temporaryDtables := next }
    else
      match σ.previous (σ.entry metaBuffer).owner with
      | none => σ
      | some prev => { σ with entry := Function.update σ.entry prev { σ.entry prev with next } }

end State

/-- What is left open in a step: the new tables, and whether `+initialize` is found. -/
structure Choice where
  dtable : TableRef
  metaDtable : TableRef
  found : Bool
deriving DecidableEq, Repr

inductive Event where
  /-- A thread calls `objc_send_initialize`. -/
  | send (t : Thread) (cls : Class)
  /-- A thread calls `dtable_for_class`. -/
  | lookUp (t : Thread) (cls : Class)
  /-- The innermost call of a thread goes on. -/
  | step (t : Thread) (choice : Choice)
deriving DecidableEq, Repr

namespace State

variable (H : Hierarchy)

/-- One step of the call `i`; `none` while it waits for a lock. -/
def advance (σ : State) (i : ℕ) (c : Call) (choice : Choice) : Option State :=
  let metaclass := H.isa c.cls
  match c.pc with
  | .start =>
    match H.superClass c.cls with
    | some sup => some ((σ.setPc i c .afterSuper).push c.thread sup .start)
    | none => some (σ.setPc i c .lockRuntime)
  | .afterSuper => some (σ.setPc i c .lockRuntime)
  | .lockRuntime => σ.acquire H i c .runtime .test
  | .test => some (σ.setPc i c (if σ.initialized c.cls then .wait else .enter))
  | .wait => σ.acquire H i c (.object metaclass) .waited
  | .waited => some (σ.pop i c)
  | .enter => σ.acquire H i c (.object metaclass) .lockRuntimeAgain
  | .lockRuntimeAgain => σ.acquire H i c .runtime .lockInitialize
  | .lockInitialize => σ.acquire H i c .initializeLock .testAgain
  | .testAgain =>
    some (σ.setPc i c (if σ.initialized c.cls then .bail else .setFlags (σ.initialized metaclass)))
  | .bail => some (σ.pop i c)
  | .setFlags skipMeta =>
    some ({ σ with initialized := Function.update (Function.update σ.initialized c.cls true) metaclass true }.setPc
      i c (.create skipMeta))
  | .create skipMeta => some (σ.setPc i c (.created skipMeta choice.dtable choice.metaDtable))
  | .created skipMeta dtable metaDtable =>
    some (σ.setPc i c (if !skipMeta && choice.found then .insert dtable metaDtable
      else .install skipMeta dtable metaDtable))
  | .install skipMeta dtable metaDtable =>
    let installed := if skipMeta then σ.dtable else Function.update σ.dtable metaclass (some metaDtable)
    some ({ σ with dtable := Function.update installed c.cls (some dtable) }.setPc i c .leave)
  | .insert dtable metaDtable => some ((σ.insertDtables H i c.cls dtable metaDtable).setPc i c .inserted)
  | .inserted => some (σ.setPc i c .call)
  | .call => some ({ σ with begun := σ.begun ++ [c.cls] }.setPc i c .running)
  | .running => some (σ.setPc i c .remove)
  | .remove => σ.acquire H i c .initializeLock .unlink
  | .unlink => some ((σ.removeDtable i).setPc i c .removed)
  | .removed => some (σ.setPc i c .leave)
  | .leave => some (σ.pop i c)
  | .look => some (if (σ.dtable c.cls).isSome then σ.pop i c else σ.setPc i c .lookLock)
  | .lookLock => σ.acquire H i c .initializeLock .search
  | .search =>
    if (σ.dtable c.cls).isSome then some (σ.pop i c)
    else
      match σ.entries.find? fun n => (σ.entry n).owner = c.cls with
      | some n => some (σ.setPc i c (.syncEnter n))
      | none => some (σ.pop i c)
  | .syncEnter n => σ.acquire H i c (.object c.cls) (.syncExit n)
  | .syncExit _ => some (σ.pop i c)

/-- A thread starts a call when it has none, or from inside `+initialize`. -/
def mayCall (σ : State) (t : Thread) : Bool :=
  match σ.stack t with
  | [] => true
  | i :: _ => (σ.call i).any fun c => c.pc = .running

/-- One event; `none` where it cannot happen. -/
def exec (σ : State) : Event → Option State
  | .send t cls => if σ.mayCall t then some (σ.push t cls .start) else none
  | .lookUp t cls => if σ.mayCall t then some (σ.push t cls .look) else none
  | .step t choice =>
    match σ.stack t with
    | [] => none
    | i :: _ => (σ.call i).bind fun c => σ.advance H i c choice

end State

/-- The steps of all threads. -/
def Step (H : Hierarchy) (σ : State) (e : Event) (σ' : State) : Prop := σ.exec H e = some σ'

/-- No class is initialised. -/
def init : State where
  initialized _ := false
  dtable _ := none
  entry _ := ⟨0, 0, none⟩
  temporaryDtables := none
  call _ := none
  nextCall := 0
  stack _ := []
  begun := []

end Libobjc2.Dispatch.Initialize

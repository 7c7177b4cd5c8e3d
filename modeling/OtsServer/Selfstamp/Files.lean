import OtsServer.Library.Directory
import OtsServer.Library.Prog
import OtsServer.Selfstamp.Ots

/-!
# The files of the self-stamper

What `ops/selfstamp.py` keeps on disk, and the calls with which it works on it. `Env`
answers every call to the file system and to the calendar, and says what a deliverer has
done in the inbox by then; each answer may depend on how many calls were made before, so
any call may answer anything, raise, or be the last thing the process does.

A directory that is missing is an empty one: no modelled function tells them apart. The
contents of a file are what the next open finds; a stop loses nothing that was written.
-/

namespace OtsServer.Selfstamp

/-- A string: its code points. -/
abbrev Str := List Nat

namespace Str

instance : LawfulBEq Str := List.instLawfulBEq

def ofChars (text : List Char) : Str := text.map Char.toNat

/-- The name begins with a dot. -/
def isDot (name : Str) : Bool := name.head? == some 0x2e

def endsWith (suffix name : Str) : Bool := suffix.isSuffixOf name

def json : Str := ofChars ['.', 'j', 's', 'o', 'n']

def ots : Str := ofChars ['.', 'o', 't', 's']

end Str

/-- What a run can raise. `stop` is the end of the process; nothing catches it. -/
inductive Fault
  | stop
  | fileNotFound
  | osError
  | ots (e : Exc)
  | valueError
  | recursionError
  | other
deriving DecidableEq

namespace Fault

/-- `except Exception`. -/
def isException : Fault → Bool
  | stop => false
  | _ => true

/-- `except OSError`. -/
def isOsError : Fault → Bool
  | fileNotFound => true
  | osError => true
  | _ => false

def isOtsError : Fault → Bool
  | ots (.otsError _) => true
  | _ => false

end Fault

inductive Place
  | manifests
  | witnessed
  | inbox
  | rejected
deriving DecidableEq

abbrev Dir := Directory Str Bytes

/-- A file that is put into the inbox under a final name, or taken back. -/
structure Delivery where
  name : Str
  final : name.isDot = false
  data : Option Bytes

def Delivery.deliver (d : Delivery) (inbox : Dir) : Dir :=
  match d.data with
  | some data => inbox.put d.name data
  | none => inbox.erase d.name

/-- How a call to the file system ends. -/
inductive FileAnswer
  | done
  | raises
  | stops
deriving DecidableEq

def FileAnswer.result : FileAnswer → Except Fault Unit
  | done => .ok ()
  | raises => .error .osError
  | stops => .error .stop

structure Env where
  file : Nat → FileAnswer
  /-- The bytes that a write which does not end well leaves. -/
  landed : Nat → Nat
  /-- The random characters of a temporary name or of a claim. -/
  token : Nat → Str
  /-- `submit_digest`. -/
  submit : Nat → Bytes → Except Fault Bytes
  /-- `fetch_timestamp`. -/
  fetch : Nat → Bytes → Except Fault (Option Bytes)
  /-- What happens in the inbox before the call. -/
  deliveries : Nat → List Delivery

structure World where
  files : Place → Dir
  calls : Nat
  /-- The files that `write_atomic` has put in place; no modelled function reads this. -/
  stored : List (Place × Str)

namespace World

def get (w : World) (p : Place) (name : Str) : Option Bytes := (w.files p).get name

def put (w : World) (p : Place) (name : Str) (data : Bytes) : World :=
  { w with files := Function.update w.files p ((w.files p).put name data) }

def erase (w : World) (p : Place) (name : Str) : World :=
  { w with files := Function.update w.files p ((w.files p).erase name) }

def deliver (w : World) (ds : List Delivery) : World :=
  { w with
    files := Function.update w.files .inbox
      (ds.foldl (fun inbox d => d.deliver inbox) (w.files .inbox)) }

/-- The world after a call. -/
def next (env : Env) (w : World) : World :=
  { w.deliver (env.deliveries w.calls) with calls := w.calls + 1 }

end World

abbrev M := Prog World Fault

section Calls

variable (env : Env)

/-- One call, answered by the surroundings. -/
def ask {α : Type} (answer : Nat → Except Fault α) : M α := fun w =>
  (answer w.calls, w.next env)

def fileCall : M Unit := ask env fun n => (env.file n).result

/-- `except` with the faults it names around `m`; `none` when one was raised. -/
def attempt {α : Type} (catches : Fault → Bool) (m : M α) : M (Option α) :=
  Prog.handle (m >>= fun a => pure (some a)) fun e => if catches e then some (pure none) else none

/-- `path.exists()`. -/
def pathExists (p : Place) (name : Str) : M Bool := do
  fileCall env
  Prog.gets fun w => (w.get p name).isSome

def readBytes (p : Place) (name : Str) : M Bytes := do
  fileCall env
  match ← Prog.gets fun w => w.get p name with
  | some data => pure data
  | none => Prog.raise .fileNotFound

/-- `_files`: the names that end in `suffix`, in order, none beginning with a dot. -/
def listFiles (p : Place) (suffix : Str) : M (List Str) := do
  fileCall env
  Prog.gets fun w => (w.files p).names.filter fun name =>
    Str.endsWith suffix name && !Str.isDot name

/-- `_fsync_dir`: the directory is opened and synced. -/
def fsyncDir : M Unit := do
  fileCall env
  fileCall env

def fsyncFile (p : Place) (name : Str) : M Unit := do
  let _ ← readBytes env p name
  fileCall env

/-- `mkstemp`: an empty file under a new name. -/
def mkstemp (p : Place) (name : Str) : M Str := do
  let token ← ask env fun n => (env.file n).result.map fun _ => env.token n
  let tmp := 0x2e :: (name ++ 0x2e :: token)
  match ← Prog.gets fun w => w.get p tmp with
  | some _ => Prog.raise .osError
  | none =>
      Prog.modify fun w => w.put p tmp []
      pure tmp

/-- `out.write` of all of `data`; when it fails, some first bytes are in the file. -/
def writeTemp (p : Place) (tmp : Str) (data : Bytes) : M Unit := fun w =>
  match env.file w.calls with
  | .done => (.ok (), (w.next env).put p tmp data)
  | .raises => (.error .osError, (w.next env).put p tmp (data.take (env.landed w.calls)))
  | .stops => (.error .stop, (w.next env).put p tmp (data.take (env.landed w.calls)))

/-- `os.replace` of a temporary file, whose contents are `data`. -/
def replaceTemp (p : Place) (tmp name : Str) (data : Bytes) : M Unit := do
  fileCall env
  Prog.modify fun w => { (w.erase p tmp).put p name data with stored := (p, name) :: w.stored }

/-- `except BaseException` in `write_atomic`: the temporary file is removed, and the exception
raised on. -/
def discardTemp (p : Place) (tmp : Str) : Fault → Option (M Unit)
  | .stop => none
  | e => some (do
      let _ ← attempt Fault.isOsError (do
        fileCall env
        Prog.modify fun w => w.erase p tmp)
      Prog.raise e)

/-- `write_atomic`. -/
def writeAtomic (p : Place) (name : Str) (data : Bytes) : M Unit := do
  let tmp ← mkstemp env p name
  Prog.handle (do
    fileCall env
    writeTemp env p tmp data
    fileCall env
    replaceTemp env p tmp name data) (discardTemp env p tmp)
  fsyncDir env

end Calls

end OtsServer.Selfstamp

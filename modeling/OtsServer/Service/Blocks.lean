import OtsServer.Service.World

/-!
# Known blocks

`KnownBlocks` of `otsserver/stamper.py`: the headers seen, from the first block this
process saw up to the tip. A discovery rolls back what the node no longer has, reads
on from there to the node's best block, and returns what it read; one that raises
leaves the known blocks as they were.
-/

namespace OtsServer.Service

section KnownBlocks

variable (env : Env)

def setKnownBlocks (f : List KnownBlock → List KnownBlock) : M Unit :=
  modifyStamper fun s => { s with knownBlocks := f s.knownBlocks }

/-- `proxy.getblockhash(height)`; an `IndexError` is no block. -/
def blockHashAt (height : Int) : M (Option Bytes) :=
  Prog.handle (do
      let hash ← ask fun n => env.getblockhash n height
      pure (some hash))
    fun
    | .indexError => some (pure none)
    | _ => none

/-- `__detect_reorgs`. -/
def detectReorgs : M Unit := do
  let blocks ← Prog.gets (·.stamper.knownBlocks)
  Prog.loop (fun _ : Unit => do
      let blocks ← Prog.gets (·.stamper.knownBlocks)
      match blocks.getLast? with
      | none => pure (.inr ())
      | some tip => do
          let actual ← blockHashAt env tip.height
          if actual = some tip.hash then pure (.inr ())
          else do
            setKnownBlocks List.dropLast
            pure (.inl ()))
    (fun _ => pure ()) (blocks.length + 1) ()

/-- The known tip is the node's best block. -/
def atBestBlock : M Bool := do
  let blocks ← Prog.gets (·.stamper.knownBlocks)
  match blocks.getLast? with
  | none => pure false
  | some tip => do
      let best ← ask env.getbestblockhash
      pure (best = tip.hash)

/-- The height to read next: the one above the known tip, or the node's own when nothing
is known. -/
def nextHeight : M Int := do
  let blocks ← Prog.gets (·.stamper.knownBlocks)
  match blocks.getLast? with
  | none => ask env.getblockcount
  | some tip => pure (tip.height + 1)

/-- A round of `update_from_proxy` that has read the blocks `read`. -/
def discover (read : List KnownBlock) : M (List KnownBlock ⊕ List KnownBlock) := do
  let best ← atBestBlock env
  if best then pure (.inr read)
  else do
    detectReorgs env
    let height ← nextHeight env
    let hash ← blockHashAt env height
    match hash with
    | none => pure (.inl read)
    | some hash => do
        setKnownBlocks (· ++ [⟨height, hash⟩])
        pure (.inl (read ++ [⟨height, hash⟩]))

/-- `update_from_proxy`. -/
def updateFromProxy : M (List KnownBlock) := do
  let known ← Prog.gets (·.stamper.knownBlocks)
  let patience ← Prog.gets fun w => env.patience w.tick
  let read ← Prog.handle (Prog.loop (discover env) (fun _ => Prog.raise .stop) patience [])
    fun e => some do
      setKnownBlocks fun _ => known
      Prog.raise e
  let calls ← Prog.gets (·.tick)
  note fun h => { h with discovery := calls - 1 }
  pure read

def bestBlockHeight (s : Stamper) : Int := (s.knownBlocks.getLast?.map (·.height)).getD 0

def bestBlockHash (s : Stamper) : Option Bytes := s.knownBlocks.getLast?.map (·.hash)

end KnownBlocks

end OtsServer.Service

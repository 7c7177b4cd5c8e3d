import Mathlib.Logic.Relation
import OtsServer.Service.Json
import OtsServer.Service.ReceiptSteps

/-!
# Interrupted appends

The receipts file under attempts to append one receipt, each of which may be interrupted anywhere.
Until an attempt has written the whole line, the next one starts from the same whole lines.
-/

namespace OtsServer.Service

/-- An attempt that did not return, by the file it found and the one it left: any call may raise or
be the last, and a stop in the cut may have taken any part of the tail. -/
inductive Interrupted (lib : Lib) (receipt : Receipt) : Bytes → Bytes → Prop
  | raised {env : Env} {w w' : World} {e : Exc} : env.lib = lib →
      appendAnchorReceipt env receipt w = (.error e, w') →
      Interrupted lib receipt w.disk.receipts w'.disk.receipts
  | cutting {file : Bytes} {n : Nat} : (wholeLines file).length ≤ n →
      Interrupted lib receipt file (file.take n)

/-- An attempt that left something else than the whole lines of `file` and the whole line. -/
def Unwritten (lib : Lib) (receipt : Receipt) (file found left : Bytes) : Prop :=
  Interrupted lib receipt found left ∧ left ≠ wholeLines file ++ receiptLine lib receipt

section Attempts

variable {lib : Lib} {receipt : Receipt} {file found left : Bytes}

/-- An append that returns. -/
theorem receipts_of_append {env : Env} {w w' : World}
    (h : appendAnchorReceipt env receipt w = (.ok (), w')) :
    w'.disk.receipts = wholeLines w.disk.receipts ++ receiptLine env.lib receipt := by
  have hdoes : Does (appendAnchorReceipt env receipt)
      (fun _ t => t.disk.receipts = wholeLines w.disk.receipts ++ receiptLine env.lib receipt)
          (fun _ _ => True) w.toState :=
    does_appendExactly rfl fun _ _ _ _ => trivial
  have hwp := hdoes.out w rfl
  rw [Prog.wp, h] at hwp
  exact hwp

/-- What an interrupted attempt leaves: a file with the whole lines it found, or those and the whole
line. -/
theorem Interrupted.cases (h : Interrupted lib receipt found left) :
    wholeLines left = wholeLines found ∨ left = wholeLines found ++ receiptLine lib receipt := by
  obtain @⟨env, w, w', e, rfl, h⟩ | @⟨_, n, hn⟩ := h
  · have hdoes : Does (appendAnchorReceipt env receipt) (fun _ _ => True)
        (fun _ t => t.disk.receipts = w.disk.receipts ∨
          ∃ k, t.disk.receipts = wholeLines w.disk.receipts ++
              (receiptLine env.lib receipt).take k) w.toState :=
      does_appendExactly trivial fun _ _ _ hfile => hfile
    have hwp := hdoes.out w rfl
    rw [Prog.wp, h] at hwp
    obtain hsame | ⟨k, hk⟩ := hwp
    · exact .inl (congrArg wholeLines hsame)
    · obtain hline | hline := take_receiptLine env.lib receipt k
      · exact .inr (by rw [← hline]; exact hk)
      · left
        rw [hk, wholeLines_append_tail hline, wholeLines_of_ended (ended_wholeLines _)]
  · left
    obtain ⟨tail, hnone, hfile⟩ := exists_wholeLines_append found
    refine wholeLines_take fun hmem => hnone ?_
    rw [← hfile, List.drop_append, List.drop_eq_nil_iff.mpr hn, List.nil_append] at hmem
    exact List.mem_of_mem_drop hmem

theorem Unwritten.wholeLines (h : Unwritten lib receipt file found left)
    (hfound : wholeLines found = wholeLines file) : wholeLines left = Service.wholeLines file := by
  obtain hleft | hleft := h.1.cases
  · exact hleft.trans hfound
  · exact absurd (hfound ▸ hleft) h.2

/-- Attempts that have not written the whole line leave the whole lines they started from. -/
theorem wholeLines_of_unwritten (h : Relation.ReflTransGen (Unwritten lib receipt file) file left) :
    wholeLines left = wholeLines file := by
  induction h with
  | refl => rfl
  | tail _ hstep ih => exact hstep.wholeLines ih

/-- No attempt changes a complete line. -/
theorem completeLines_of_interrupted
    (h : Relation.ReflTransGen (Interrupted lib receipt) file left) :
    completeLines file <+: completeLines left := by
  induction h with
  | refl => exact List.prefix_rfl
  | @tail found left _ hstep ih =>
      refine ih.trans ?_
      obtain hleft | rfl := hstep.cases
      · rw [← completeLines_wholeLines left, hleft, completeLines_wholeLines]
      · rw [completeLines_append_receipt]
        exact List.prefix_append ..

end Attempts

/-- One append that returns leaves the whole lines and the receipt's; so it does after any number of
interrupted attempts none of which had written the whole line; and no complete line is ever
altered. -/
theorem append_repairs_tail {lib : Lib} {receipt : Receipt}
    {file : Bytes} {env : Env} {w w' : World} (hlib : env.lib = lib)
    (hattempts : Relation.ReflTransGen (Interrupted lib receipt) file w.disk.receipts)
    (hreturns : appendAnchorReceipt env receipt w = (.ok (), w')) :
    w'.disk.receipts = wholeLines w.disk.receipts ++ receiptLine lib receipt ∧
      (Relation.ReflTransGen (Unwritten lib receipt file) file w.disk.receipts →
        w'.disk.receipts = wholeLines file ++ receiptLine lib receipt) ∧
      completeLines file <+: completeLines w.disk.receipts ∧
        completeLines file <+: completeLines w'.disk.receipts := by
  obtain rfl := hlib
  have hfile := receipts_of_append hreturns
  have hlines := completeLines_of_interrupted hattempts
  refine ⟨hfile, fun hunwritten => ?_, hlines, hlines.trans ?_⟩
  · rw [hfile, wholeLines_of_unwritten hunwritten]
  · rw [hfile, completeLines_append_receipt]
    exact List.prefix_append ..

namespace Torn

def receipt : Receipt := ⟨[0xab], 1, 1, 1, 1, 1⟩

/-- A line, and the beginning of another. -/
def file : Bytes := [0x7b, newline, 0x7b, 0x22]

def start : World :=
  let w := World.empty (.standard true)
  { w with disk := { w.disk with receipts := file } }

/-- A disk on which the process stops after five bytes of a write. -/
def stopping : Env := { Env.quiet Lib.idle with write := fun _ => .stops 5 }

def stopped : World := (appendAnchorReceipt stopping receipt start).2

end Torn

/-- A torn line, an append that stops in its write, and one that returns. -/
theorem torn_line_repaired :
    (appendAnchorReceipt (.quiet Lib.idle) Torn.receipt Torn.stopped).2.disk.receipts =
      [0x7b, newline] ++ receiptLine Lib.idle Torn.receipt := by
  have hstop : Interrupted Lib.idle Torn.receipt Torn.file Torn.stopped.disk.receipts :=
    .raised rfl (Prod.ext (show (appendAnchorReceipt Torn.stopping Torn.receipt Torn.start).1 =
            .error .stop from by
      decide +kernel) rfl)
  have hunwritten :
      Unwritten Lib.idle Torn.receipt Torn.file Torn.file Torn.stopped.disk.receipts :=
    ⟨hstop, by decide +kernel⟩
  exact (append_repairs_tail rfl (.single hstop) (Prod.ext (show
    (appendAnchorReceipt (.quiet Lib.idle) Torn.receipt Torn.stopped).1 = .ok () from
      by decide +kernel) rfl)).2.1 (.single hunwritten)

end OtsServer.Service

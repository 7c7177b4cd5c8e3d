import OtsServer.Service.Lines

/-!
# Receipts as moves

Every program on the receipts file and the markers makes moves. `Refines` is the shape
of all these results: a program that returns or raises has made moves, and one in which
the process stopped left the disk and the history of a state that moves reach.
-/

namespace OtsServer.Service

variable {env : Env} {allowed : Config → Prop}

/-! ## Refinement -/

section Refines

variable {α β : Type} {s t : State}

/-- Moves lead from one state of the process to another. -/
structure Reaches (env : Env) (allowed : Config → Prop) (s t : State) : Prop where
  moves : Moves env.lib allowed s t
  running : t.running = true

/-- A state in which the process stopped: what stays of it, moves reach. -/
def Stopped (env : Env) (allowed : Config → Prop) (s t : State) : Prop :=
  ∃ u, Moves env.lib allowed s u ∧ t.disk = u.disk ∧ t.history = u.history

/-- Where a program raised. -/
structure Fails (env : Env) (allowed : Config → Prop) (s : State) (e : Exc) (t : State) : Prop where
  stopped : e = .stop → Stopped env allowed s t
  raised : e ≠ .stop → Reaches env allowed s t

/-- The program makes moves. -/
def Refines (env : Env) (allowed : Config → Prop) (m : M α) : Prop :=
  ∀ s, s.running = true → Does m (fun _ => Reaches env allowed s) (Fails env allowed s) s

theorem Reaches.refl (h : s.running = true) : Reaches env allowed s s := ⟨.refl, h⟩

theorem Reaches.trans {u : State} (h : Reaches env allowed s t) (h' : Reaches env allowed t u) :
    Reaches env allowed s u :=
  ⟨h.moves.trans h'.moves, h'.running⟩

theorem Reaches.move (h : Reaches env allowed s t) {u : State} (hm : Move env.lib allowed t u)
    (hu : u.running = true) : Reaches env allowed s u :=
  ⟨h.moves.tail hm, hu⟩

theorem Stopped.of_moves (h : Moves env.lib allowed s t) : Stopped env allowed s t :=
  ⟨t, h, rfl, rfl⟩

theorem Reaches.fails (h : Reaches env allowed s t) (e : Exc) : Fails env allowed s e t :=
  ⟨fun _ => .of_moves h.moves, fun _ => h⟩

theorem Reaches.fails_trans {u : State} {e : Exc} (h : Reaches env allowed s t)
    (h' : Fails env allowed t e u) : Fails env allowed s e u := by
  refine ⟨fun he => ?_, fun he => h.trans (h'.raised he)⟩
  obtain ⟨v, hv, hd, hh⟩ := h'.stopped he
  exact ⟨v, h.moves.trans hv, hd, hh⟩

/-- A process that stopped is a state moves lead to. -/
theorem Stopped.moves (h : Stopped env allowed s t) :
    Moves env.lib allowed s { t with running := false } := by
  obtain ⟨u, hu, hd, hh⟩ := h
  exact hu.tail (.stop u _ rfl hd hh)

theorem Refines.from {m : M α} (hm : Refines env allowed m) (h : Reaches env allowed s t) :
    Does m (fun _ => Reaches env allowed s) (Fails env allowed s) t :=
  (hm t h.running).mono (fun _ _ => h.trans) fun _ _ => h.fails_trans

theorem Refines.pure (a : α) : Refines env allowed (pure a) := fun _ hs => Prog.Sees.pure (.refl hs)

theorem Refines.raise (e : Exc) : Refines env allowed (Prog.raise (α := α) e) :=
  fun _ hs => Prog.Sees.raise ((Reaches.refl hs).fails e)

theorem Refines.gets (f : World → α) : Refines env allowed (Prog.gets f) :=
  fun _ hs => Prog.Sees.gets_any fun _ => .refl hs

theorem Refines.ask (f : Nat → Except Exc α) : Refines env allowed (ask f) :=
  fun _ hs => does_ask (fun _ _ _ => .refl hs) fun _ e _ => (Reaches.refl hs).fails e

theorem Refines.bind {m : M α} {f : α → M β} (hm : Refines env allowed m)
    (hf : ∀ a, Refines env allowed (f a)) : Refines env allowed (m >>= f) :=
  fun s hs => .bind ((hm s hs).mono (fun a _ ht => (hf a).from ht) fun _ _ h => h)

theorem Refines.ite {c : Prop} [Decidable c] {m n : M α} (hm : c → Refines env allowed m)
    (hn : ¬c → Refines env allowed n) : Refines env allowed (if c then m else n) :=
  fun s hs => .ite (fun h => hm h s hs) fun h => hn h s hs

theorem Refines.handle {m : M α} {h : Exc → Option (M α)} (hm : Refines env allowed m)
    (hstop : h .stop = none) (hh : ∀ e n, h e = some n → Refines env allowed n) :
    Refines env allowed (Prog.handle m h) := by
  refine fun s hs => .handle ((hm s hs).mono (fun _ _ h => h) fun e t ht => ?_)
  cases hn : h e with
  | none => exact ht
  | some n =>
      refine (hh e n hn).from (ht.raised ?_)
      rintro rfl
      exact nomatch hstop.symm.trans hn

theorem Refines.guarded {m : M α} {handler : Exc → M α} (hm : Refines env allowed m)
    (hh : ∀ e, Refines env allowed (handler e)) : Refines env allowed (guarded m handler) := by
  refine hm.handle rfl fun e n hn => ?_
  cases e
  case stop => exact nomatch hn
  case systemExit => exact nomatch hn
  all_goals exact Option.some.inj hn ▸ hh _

theorem Refines.loop {body : β → M (β ⊕ α)}
    {out : β → M α} (hbody : ∀ b, Refines env allowed (body b))
    (hout : ∀ b, Refines env allowed (out b)) (n : Nat) (b : β) :
    Refines env allowed (Prog.loop body out n b) :=
  fun s hs => .loop (fun _ _ t => Reaches env allowed s t)
    (fun _ b _ ht => ((hbody b).from ht).mono (fun r _ h => by cases r <;> exact h) fun _ _ h => h)
    (fun b _ ht => (hout b).from ht) n b (.refl hs)

theorem Refines.forEach {f : β → M Unit} (h : ∀ b, Refines env allowed (f b)) (bs : List β) :
    Refines env allowed (Prog.forEach f bs) :=
  fun s hs => .forEach (fun _ t => Reaches env allowed s t) (fun b _ _ ht => (h b).from ht)
    (fun _ h => h) bs (.refl hs)

/-- A change that is a move. -/
theorem Refines.modifyStamper {f : Stamper → Stamper}
    (h : ∀ s : State, s.running = true → Moves env.lib allowed s (s.setStamper f)) :
    Refines env allowed (modifyStamper f) :=
  fun s hs => does_modifyStamper ⟨h s hs, hs⟩

end Refines

/-! ## The receipts file -/

/-- The state with another receipts file. -/
def State.withReceipts (s : State) (file : Bytes) : State :=
  s.setDisk fun disk => { disk with receipts := file }

section File

variable {s : State}

theorem rfindNewline_none {chunk : Bytes} (h : rfindNewline chunk = none) : newline ∉ chunk := by
  rw [rfindNewline, Option.map_eq_none_iff, List.findIdx?_eq_none_iff] at h
  intro hmem
  simpa using h newline (List.mem_reverse.mpr hmem)

theorem rfindNewline_some {chunk : Bytes} {i : Nat} (h : rfindNewline chunk = some i) :
    chunk[i]? = some newline ∧ newline ∉ chunk.drop (i + 1) := by
  rw [rfindNewline, Option.map_eq_some_iff] at h
  obtain ⟨j, hj, rfl⟩ := h
  rw [List.findIdx?_eq_some_iff_getElem] at hj
  obtain ⟨hlt, heq, hbefore⟩ := hj
  rw [List.length_reverse] at hlt
  rw [List.getElem_reverse, decide_eq_true_eq] at heq
  refine ⟨by rw [List.getElem?_eq_getElem (by omega), heq], fun hmem => ?_⟩
  obtain ⟨k, hk, hkeq⟩ := List.mem_iff_getElem.mp hmem
  rw [List.length_drop] at hk
  rw [List.getElem_drop] at hkeq
  have := hbefore (chunk.length - 1 - (chunk.length - 1 - j + 1 + k)) (by omega)
  rw [List.getElem_reverse, decide_eq_true_eq] at this
  apply this
  convert hkeq using 2
  omega

theorem mem_drop_take {file : Bytes} {start pos k : Nat} (hnone : newline ∉ file.drop pos)
    (h : newline ∈ file.drop (start + k)) : newline ∈ ((file.take pos).drop start).drop k := by
  rw [List.drop_drop]
  by_cases hk : start + k ≤ pos
  · rw [← List.take_append_drop pos file, List.drop_append, List.mem_append] at h
    exact h.resolve_right fun h => hnone (List.mem_of_mem_drop h)
  · refine absurd ?_ hnone
    rw [show start + k = pos + (start + k - pos) by omega, ← List.drop_drop] at h
    exact List.mem_of_mem_drop h

theorem notMem_drop_of_rfindNewline {file : Bytes} {start pos : Nat}
    (hnone : newline ∉ file.drop pos) (h : rfindNewline ((file.take pos).drop start) = none) :
    newline ∉ file.drop start :=
  fun hmem => rfindNewline_none h (mem_drop_take (k := 0) hnone hmem)

/-- The last newline of a chunk is the last of the file when none is after the chunk. -/
theorem ended_take_of_rfindNewline {file : Bytes} {start pos i : Nat}
    (hnone : newline ∉ file.drop pos) (h : rfindNewline ((file.take pos).drop start) = some i) :
    newline ∉ file.drop (start + i + 1) ∧ Ended (file.take (start + i + 1)) := by
  obtain ⟨hat, hafter⟩ := rfindNewline_some h
  refine ⟨fun hmem => hafter (mem_drop_take hnone hmem), .inr ?_⟩
  rw [List.getElem?_drop, List.getElem?_take] at hat
  split_ifs at hat with hpos
  have hlen := (List.getElem?_eq_some_iff.mp hat).1
  rw [List.getLast?_eq_getElem?, List.length_take, List.getElem?_take,
    show min (start + i + 1) file.length - 1 = start + i by omega, if_pos (by omega), hat]

theorem chunkSize_pos : 0 < chunkSize := by decide

theorem searchChunk_inl {file : Bytes} {start pos next : Nat} (hnone : newline ∉ file.drop pos)
    (h : searchChunk file start pos = .inl next) : newline ∉ file.drop next ∧ next = start := by
  rw [searchChunk] at h
  split at h
  next => exact nomatch h
  next hfind =>
    obtain rfl := Sum.inl.inj h
    exact ⟨notMem_drop_of_rfindNewline hnone hfind, rfl⟩

theorem searchChunk_inr {file : Bytes} {start pos keep : Nat} (hnone : newline ∉ file.drop pos)
    (h : searchChunk file start pos = .inr keep) :
    newline ∉ file.drop keep ∧ Ended (file.take keep) := by
  rw [searchChunk] at h
  split at h
  next hfind =>
    obtain rfl := Sum.inr.inj h
    exact ended_take_of_rfindNewline hnone hfind
  next => exact nomatch h

/-- The backward search ends at the end of the last complete line. -/
theorem does_searchTail {E : Exc → State → Prop} (herr : ∀ e, IsFileError e → E e s) :
    Does (searchTail env s.disk.receipts.length) (fun keep t => t = s ∧
        newline ∉ s.disk.receipts.drop keep ∧ Ended (s.disk.receipts.take keep)) E s := by
  let inv (n : Nat) (pos : Nat) (t : State) : Prop :=
    t = s ∧ newline ∉ s.disk.receipts.drop pos ∧ pos < n
  refine Prog.Sees.loop inv (fun n pos t ht => ?_) (fun pos t ht => ?_) _ _
    ⟨rfl, by simp, Nat.lt_succ_self _⟩
  · obtain ⟨rfl, hnone, hlt⟩ := ht
    refine Prog.Sees.ite (fun h0 => .pure ⟨rfl, by simpa [h0] using hnone, .inl (by simp)⟩)
      fun h0 => ?_
    refine .bind (does_fileCall
        (.bind (does_gets (·.disk.receipts) (fun _ => rfl) (.pure ?_))) herr)
    cases hchunk : searchChunk t.disk.receipts (pos - chunkSize) pos with
    | inl next =>
        have hnext := searchChunk_inl hnone hchunk
        refine ⟨rfl, hnext.1, ?_⟩
        rw [hnext.2]
        exact (Nat.sub_lt (Nat.pos_of_ne_zero h0) chunkSize_pos).trans_le (Nat.lt_succ_iff.mp hlt)
    | inr keep => exact ⟨rfl, searchChunk_inr hnone hchunk⟩
  · exact absurd ht.2.2 (Nat.not_lt_zero _)

/-- An incomplete last line is dropped, and nothing else; a failure has dropped it or left the file
as it was. -/
theorem does_recoverReceiptTail {E : Exc → State → Prop}
    (herr : ∀ e file, IsFileError e → file = s.disk.receipts ∨ file = wholeLines s.disk.receipts →
      E e (s.withReceipts file)) :
    Does (recoverReceiptTail env)
      (fun _ t => t = s.withReceipts (wholeLines s.disk.receipts)) E s := by
  have herr' : ∀ e, IsFileError e → E e s := fun e he => herr e s.disk.receipts he (.inl rfl)
  have hdone (hended : Ended s.disk.receipts) :
      s = s.withReceipts (wholeLines s.disk.receipts) := by
    rw [wholeLines_of_ended hended]
    rfl
  refine .bind (does_fileCall (.bind (does_gets (·.disk.receipts) (fun _ => rfl) ?_)) herr')
  refine .ite (fun hnil => .pure (hdone (.inl hnil))) fun hne => ?_
  refine .bind (does_fileCall
      (.ite (fun hlast => .pure (hdone (.inr hlast))) fun hlast => ?_) herr')
  refine .bind ((does_searchTail herr').mono ?_ fun _ _ h => h)
  rintro keep t ⟨rfl, hnone, hended⟩
  have hwhole : t.disk.receipts.take keep = wholeLines t.disk.receipts := by
    rw [← wholeLines_take hnone, wholeLines_of_ended hended]
  rw [← hwhole] at herr ⊢
  exact .bind (does_fileEffect
    (does_fileCall rfl fun e he => herr e _ he (.inr rfl)) herr')

theorem appends_receipts :
    Appends fun data disk => { disk with receipts := disk.receipts ++ data } where
  nil d := by simp
  append x y d := by simp

/-- The line stands behind the whole lines of the file when the append returns, and some first bytes
of it may when it raises; nothing else changes. -/
theorem does_appendLine {text : Bytes} {Q : Unit → State → Prop} {E : Exc → State → Prop}
    (h : Q () (s.withReceipts (wholeLines s.disk.receipts ++ (text ++ [newline]))))
    (herr : ∀ e file, IsFileError e → file = s.disk.receipts ∨
      (∃ k, file = wholeLines s.disk.receipts ++ (text ++ [newline]).take k) →
      E e (s.withReceipts file)) : Does (appendLine env text) Q E s := by
  have hfull : ∃ k, wholeLines s.disk.receipts ++ (text ++ [newline]) =
      wholeLines s.disk.receipts ++ (text ++ [newline]).take k :=
        ⟨(text ++ [newline]).length, by rw [List.take_length]⟩
  refine .bind (does_fileCall ?_ fun e he => herr e s.disk.receipts he (.inl rfl))
  refine .bind ((does_recoverReceiptTail fun e file he hf => herr e file he ?_).mono
      ?_ fun _ _ h => h)
  · exact hf.imp_right fun hf => ⟨0, by rw [hf, List.take_zero, List.append_nil]⟩
  rintro - t rfl
  refine .bind (does_writeAll appends_receipts ?_ fun e k he => herr e _ he (.inr ⟨k, rfl⟩))
  exact .bind (does_fileCall (does_fsyncDir h fun e he => herr e _ he (.inr hfull))
    fun e he => herr e _ he (.inr hfull))

theorem does_appendExactly {receipt : Receipt} {Q : Unit → State → Prop} {E : Exc → State → Prop}
    (h : Q () (s.withReceipts (wholeLines s.disk.receipts ++ receiptLine env.lib receipt)))
    (herr : ∀ e file, IsFileError e → file = s.disk.receipts ∨
        (∃ k, file = wholeLines s.disk.receipts ++ (receiptLine env.lib receipt).take k) →
      E e (s.withReceipts file)) :
    Does (appendAnchorReceipt env receipt) Q E s :=
  does_appendLine h herr

theorem completeLines_append_receipt (lib : Lib) (file : Bytes) (receipt : Receipt) :
    completeLines (wholeLines file ++ receiptLine lib receipt) =
      completeLines file ++ [receiptLine lib receipt] := by
  rw [receiptLine, completeLines_append_line (ended_wholeLines file)
    (lib.codec.line_no_newline receipt), completeLines_wholeLines]

/-- Some first bytes of a receipt's line: its newline is there, or it is no line. -/
theorem take_receiptLine (lib : Lib) (receipt : Receipt) (k : Nat) :
    (receiptLine lib receipt).take k = receiptLine lib receipt ∨
      newline ∉ (receiptLine lib receipt).take k := by
  by_cases hk : k ≤ (lib.codec.line receipt).length
  · right
    rw [receiptLine, List.take_append_of_le_length hk]
    exact fun hmem => lib.codec.line_no_newline receipt (List.mem_of_mem_take hmem)
  · left
    exact List.take_of_length_le
      (by rw [receiptLine, List.length_append, List.length_singleton]; omega)

/-- The line is on file when the append returns, and may be when it raises; nothing else
changes. -/
theorem does_appendAnchorReceipt {receipt : Receipt} {Q : Unit → State → Prop}
    {E : Exc → State → Prop} (h : ∀ file, completeLines file =
      completeLines s.disk.receipts ++ [receiptLine env.lib receipt] → Q () (s.withReceipts file))
    (herr : ∀ e file, IsFileError e → completeLines file = completeLines s.disk.receipts ∨
      completeLines file = completeLines s.disk.receipts ++ [receiptLine env.lib receipt] →
      E e (s.withReceipts file)) : Does (appendAnchorReceipt env receipt) Q E s := by
  have hall := completeLines_append_receipt env.lib s.disk.receipts receipt
  refine does_appendExactly (h _ hall) fun e file he hfile => herr e file he ?_
  obtain rfl | ⟨k, rfl⟩ := hfile
  · exact .inl rfl
  · obtain hk | hk := take_receiptLine env.lib receipt k
    · exact .inr (by rw [hk, hall])
    · exact .inl (by rw [completeLines_append_tail hk, completeLines_wholeLines])

end File

/-! ## Settling -/

section Settling

variable {s t : State}

/-- What settling may change. -/
def SettledFrom (s t : State) : Prop :=
  ∃ receipts markers discarded, t = { s with
    disk := { s.disk with receipts := receipts, markers := markers }
    history := { s.history with discarded := discarded } }

theorem SettledFrom.refl (s : State) : SettledFrom s s := ⟨_, _, _, rfl⟩

theorem SettledFrom.trans {u : State} (h : SettledFrom s t) (h' : SettledFrom t u) :
    SettledFrom s u := by
  obtain ⟨_, _, _, rfl⟩ := h
  obtain ⟨r, m, d, rfl⟩ := h'
  exact ⟨r, m, d, rfl⟩

/-- Moves that only settle. -/
structure Settles (env : Env) (allowed : Config → Prop) (s t : State) : Prop where
  reaches : Reaches env allowed s t
  frame : SettledFrom s t

theorem Settles.refl (h : s.running = true) : Settles env allowed s s := ⟨.refl h, .refl s⟩

theorem Settles.trans {u : State} (h : Settles env allowed s t) (h' : Settles env allowed t u) :
    Settles env allowed s u :=
  ⟨h.reaches.trans h'.reaches, h.frame.trans h'.frame⟩

theorem Settles.receipts (hs : s.running = true) {file : Bytes}
    (h : Moves env.lib allowed s (s.withReceipts file)) :
    Settles env allowed s (s.withReceipts file) :=
  ⟨⟨h, hs⟩, file, s.disk.markers, s.history.discarded, rfl⟩

theorem does_receiptOnFile {txid : Bytes} {Q : Bool → State → Prop} {E : Exc → State → Prop}
    (h : ∀ b, findReceipt env.lib.codec txid (completeLines s.disk.receipts) = .ok b → Q b s)
    (herr : ∀ e, E e s) : Does (receiptOnFile env txid) Q E s :=
  .bind (does_fileCall (.bind (does_gets (·.disk.receipts) (fun _ => rfl)
    (.ofExcept h fun e _ => herr e))) fun e _ => herr e)

/-- A line that was appended is found. -/
theorem findReceipt_appended {receipt : Receipt} {lines : List Bytes}
    (h : findReceipt env.lib.codec receipt.txid lines = .ok false) :
    findReceipt env.lib.codec receipt.txid (lines ++ [receiptLine env.lib receipt]) = .ok true :=
  (findReceipt_append h).trans (findReceipt_line receipt)

theorem does_settleDue (hs : s.running = true) {name body : Bytes} {receipt : Receipt}
    (hname : s.disk.markers.lookup name = some body)
    (hbody : env.lib.codec.bodyReceipt body = .ok receipt) :
    Does (settleDue env name (dueOf env receipt)) (fun _ => Settles env allowed s)
      (fun _ => Settles env allowed s) s := by
  have hrefl : Settles env allowed s s := .refl hs
  refine .bind (does_receiptOnFile (fun onFile hfind => ?_) fun _ => hrefl)
  refine .bind (does_dbContains ?_ fun _ _ => hrefl)
  refine .ite (fun hsaved => ?_) fun hsaved => .ite (fun _ => .raise hrefl) fun hoff => ?_
  · cases onFile with
    | true =>
        refine .bind (.bind
            (does_fileCall (.bind (does_fileCall ?_ fun _ _ => hrefl)) fun _ _ => hrefl))
        refine does_fsyncDir (does_fileEffect ?_ fun _ _ => hrefl) fun _ _ => hrefl
        refine ⟨⟨.single (.settle s name body receipt hs hname hbody hsaved hfind), hs⟩, ?_⟩
        exact ⟨s.disk.receipts, s.disk.markers.erase name, s.history.discarded, rfl⟩
    | false =>
        have htail : ∀ file, completeLines file = completeLines s.disk.receipts →
            Settles env allowed s (s.withReceipts file) :=
          fun file h => .receipts hs (.single (.tail s file h))
        have hrecover : ∀ file,
            completeLines file = completeLines s.disk.receipts ++ [receiptLine env.lib receipt] →
            Settles env allowed s (s.withReceipts file) :=
          fun file h => .receipts hs
            (.single (.recover s name body receipt file hs hname hbody hsaved hfind h))
        refine .bind (does_appendAnchorReceipt (fun file hfile => ?_) fun _ file _ hfile =>
          hfile.elim (htail file) (hrecover file))
        refine does_fileEffect ?_ fun _ _ => hrecover file hfile
        refine (hrecover file hfile).trans
          ⟨⟨.single (.settle _ name body receipt hs hname hbody hsaved ?_), hs⟩, ?_⟩
        · exact (congrArg _ hfile).trans (findReceipt_appended hfind)
        · exact ⟨file, s.disk.markers.erase name, s.history.discarded, rfl⟩
  · have hfalse : onFile = false := Bool.eq_false_iff.mpr hoff
    rw [hfalse] at hfind
    refine .bind (does_fileEffect ?_ fun _ _ => hrefl)
    refine .bind (does_gets (·.disk) (fun _ => rfl) (does_note ?_))
    refine ⟨⟨.single
      (.discard s name body receipt hs hname hbody (Bool.eq_false_iff.mpr hsaved) hfind), hs⟩, ?_⟩
    exact ⟨s.disk.receipts, s.disk.markers.erase name, _, rfl⟩

theorem does_settleMarker (hs : s.running = true) (name : Bytes) :
    Does (settleMarker env name) (fun _ => Settles env allowed s)
      (fun _ => Settles env allowed s) s := by
  have hrefl : Settles env allowed s s := .refl hs
  refine .bind (does_fileCall (.bind (does_gets (·.disk.markers) (fun _ => rfl) ?_))
      fun _ _ => hrefl)
  cases hname : s.disk.markers.lookup name with
  | none => exact .raise hrefl
  | some body =>
      dsimp only
      cases hbody : env.lib.codec.bodyReceipt body with
      | ok receipt => exact does_settleDue hs hname hbody
      | error e =>
          have haside : Settles env allowed s
              (s.setDisk fun disk => { disk with markers := disk.markers.erase name }) :=
            ⟨⟨.single (.setAside s name body e hname hbody), hs⟩,
              s.disk.receipts, s.disk.markers.erase name, s.history.discarded, rfl⟩
          exact .ite (fun _ => does_fileEffect haside fun _ _ => hrefl) fun _ => .raise hrefl

variable (env allowed) in
theorem does_settlePendingReceipt (hs : s.running = true) :
    Does (settlePendingReceipt env) (fun _ => Settles env allowed s)
      (fun _ => Settles env allowed s) s := by
  have hrefl : Settles env allowed s s := .refl hs
  refine .bind (does_gets (·.stamper.config.receiptsOn) (fun _ => rfl)
      (.ite (fun _ => ?_) fun _ => .pure hrefl))
  refine .bind (.bind (does_fileCall (.bind (.gets_any fun markers => .pure ?_)) fun _ _ => hrefl))
  refine .forEach (fun _ => Settles env allowed s) (fun name _ t ht => ?_) (fun _ h => h) _ hrefl
  refine does_guarded ((does_settleMarker ht.reaches.running name).mono (fun _ _ => ht.trans) ?_)
  refine fun e u hu => ⟨fun _ => ht.trans hu, fun _ _ => ?_⟩
  cases e <;> first | exact .raise (ht.trans hu) | exact .pure (ht.trans hu)

end Settling

/-! ## Saves -/

section Saves

variable {s t : State} {height : Int} {confirmed : TimestampTx}

/-- A standing marker of the tree itself is no overlap. -/
theorem overlapping_marked (lib : Lib) (confirmed : TimestampTx) (s : State) (body : Bytes)
    (overlapped : List (Bytes × Bool)) :
    overlapping lib confirmed { s with
      disk := { s.disk with markers := s.disk.markers.insert (lib.txid confirmed.tx) body }
      history := { s.history with overlapped := overlapped } } = overlapping lib confirmed s := by
  rw [overlapping, overlapping, Bool.eq_iff_iff, List.any_eq_true, List.any_eq_true]
  refine exists_congr fun name => ?_
  rw [← AList.mem_keys, ← AList.mem_keys, AList.mem_insert]
  constructor
  · rintro ⟨rfl | hmem, h⟩
    · simp at h
    · exact ⟨hmem, h⟩
  · exact fun ⟨hmem, h⟩ => ⟨.inr hmem, h⟩

theorem appends_nothing : Appends fun _ disk => disk := ⟨fun _ => rfl, fun _ _ _ => rfl⟩

theorem does_owePendingReceipt (hs : s.running = true)
    (hwaits : s.stamper.txsWaitingForConfirmation.lookup height = some confirmed) :
    Does (owePendingReceipt env confirmed) (fun receipt t => Reaches env allowed s t ∧
        t.stamper = s.stamper ∧ MayLand env.lib t confirmed receipt)
      (fun _ => Reaches env allowed s) s := by
  refine .bind (does_ask (fun _ now _ => ?_) fun _ _ _ => .refl hs)
  refine .bind ((does_settlePendingReceipt env allowed hs).mono ?_ fun _ _ h => h.reaches)
  rintro - u ⟨hsu, r, m, d, rfl⟩
  refine .bind (does_gets (overlapping env.lib confirmed) (fun _ => rfl) (.bind (does_note ?_)))
  have hnoticed := hsu.move (.notice _ height confirmed hwaits) hsu.running
  refine .bind (.bind (does_fileCall ?_ fun _ _ => hnoticed))
  refine .bind (does_writeAll appends_nothing ?_ fun _ _ _ => hnoticed)
  refine .bind (does_fileCall ?_ fun _ _ => hnoticed)
  have hmarked := hsu.move (.mark _ height confirmed
    ⟨env.lib.txid confirmed.tx, confirmed.fee, confirmed.commitments.length, confirmed.height,
      now.floor, confirmed.records⟩ hsu.running hwaits ⟨rfl, rfl, rfl⟩) hsu.running
  refine .bind (does_fileEffect (does_fsyncDir ?_ fun _ _ => hmarked) fun _ _ => hnoticed)
  refine .pure ⟨hmarked, rfl, ⟨rfl, rfl, rfl⟩, AList.lookup_insert _, ?_⟩
  refine List.mem_append_right _ (List.mem_singleton.mpr (Prod.ext rfl ?_))
  exact overlapping_marked _ _ _ _ _

theorem does_saveTimestamps (hs : s.running = true)
    (hwaits : s.stamper.txsWaitingForConfirmation.lookup height = some confirmed)
    (hmay : s.stamper.config.receiptsOn = true → ∃ receipt, MayLand env.lib s confirmed receipt)
    {Q : Unit → State → Prop} (h : Q () (s.batched env.lib confirmed
        (checkpointAfter s.stamper confirmed) s.disk.receipts s.disk.markers)) :
    Does (saveTimestamps env confirmed (checkpointAfter s.stamper confirmed)) Q
      (fun _ => Reaches env allowed s) s := by
  have hrefl : Reaches env allowed s s := .refl hs
  have hland := hrefl.move (.land s height confirmed hs hwaits hmay) hs
  refine .bind (.bind
      (does_dbRead (does_dbBatch ?_ (fun _ _ => hrefl) fun _ _ => hland) fun _ _ => hrefl))
  cases hidx : checkpointAfter s.stamper confirmed with
  | none =>
      rw [hidx] at h
      exact .pure h
  | some idx =>
      rw [hidx] at h
      exact .bind (does_gets (·.db) (fun _ => rfl) (does_note h))

/-- What the rest of a save does after its batch. -/
theorem does_writeOwedReceipt {watermark : Option Nat} {receipt : Receipt}
    (hon : s.stamper.config.receiptsOn = true) (hmay : MayLand env.lib s confirmed receipt)
    {Q : Unit → State → Prop} {E : Exc → State → Prop}
    (h : ∀ receipts markers, ReceiptOutcome env.lib s confirmed receipts markers →
      Q () (s.batched env.lib confirmed watermark receipts markers))
    (hstop : ∀ receipts markers, ReceiptOutcome env.lib s confirmed receipts markers →
      E .stop (s.batched env.lib confirmed watermark receipts markers)) :
    Does (writeOwedReceipt env receipt) Q E
      (s.batched env.lib confirmed watermark s.disk.receipts s.disk.markers) := by
  have howed := fun file hfile => ReceiptOutcome.owed (s := s) receipt file hon hmay hfile
  have hwritten := fun file hfile => ReceiptOutcome.written (s := s) receipt file hon hmay hfile
  refine .bind (does_guarded (.bind (does_appendAnchorReceipt (fun file hfile => .pure ?_) ?_)))
  · refine .ite (fun _ => .handle (does_fileEffect ?_ ?_)) fun h => absurd rfl h
    · exact h _ _ (.settled receipt file hon hmay hfile)
    · rintro e (rfl | ⟨errno, rfl⟩)
      · exact hstop _ _ (hwritten file hfile)
      · exact .pure (h _ _ (hwritten file hfile))
  · rintro e file he hfile
    have hout : ReceiptOutcome env.lib s confirmed file s.disk.markers :=
      hfile.elim (howed file) (hwritten file)
    refine ⟨?_, fun _ _ => .pure (.ite (fun h => nomatch h) fun _ => .pure (h _ _ hout))⟩
    rintro (rfl | rfl)
    · exact hstop _ _ hout
    · obtain h | ⟨_, h⟩ := he <;> exact nomatch h

variable (env allowed) in
/-- A save ends with its batch written, or with the tree where it was. -/
theorem does_saveConfirmedTimestampTx (hs : s.running = true)
    (hwaits : s.stamper.txsWaitingForConfirmation.lookup height = some confirmed) :
    Does (saveConfirmedTimestampTx env confirmed (checkpointAfter s.stamper confirmed))
      (fun _ u => ∃ t receipts markers, Reaches env allowed s t ∧ t.stamper = s.stamper ∧
        ReceiptOutcome env.lib t confirmed receipts markers ∧
        u = t.batched env.lib confirmed (checkpointAfter t.stamper confirmed) receipts markers)
      (Fails env allowed s) s := by
  refine .bind (does_gets (·.stamper.config.receiptsOn) (fun _ => rfl)
      (.ite (fun hon => ?_) fun hoff => ?_))
  · refine .bind ((does_owePendingReceipt hs hwaits).mono ?_ fun e t h => h.fails e)
    rintro receipt t ⟨hst, hstamper, hmay⟩
    rw [← hstamper] at hwaits hon ⊢
    refine .bind ((does_saveTimestamps hst.running hwaits (fun _ => ⟨receipt, hmay⟩) ?_).mono
      (fun _ _ h => h) fun e u hu => (hst.trans hu).fails e)
    refine does_writeOwedReceipt hon hmay (fun receipts markers hout => ?_)
      fun receipts markers hout => ?_
    · exact ⟨t, receipts, markers, hst, rfl, hout, rfl⟩
    · refine ⟨fun _ => ?_, fun h => absurd rfl h⟩
      exact ⟨_, hst.moves.tail
        (.save t height confirmed receipts markers hst.running hwaits hout), rfl, rfl⟩
  · refine (does_saveTimestamps hs hwaits (fun hon => absurd hon hoff) ?_).mono (fun _ _ h => h)
      fun e u hu => hu.fails e
    exact ⟨s, _, _, .refl hs, rfl, .off (Bool.eq_false_iff.mpr hoff), rfl⟩

end Saves

end OtsServer.Service

import Xinu.Rds.Comm

/-!
# Which reply an exchange returns

What each try of `rdscomm` does depends on the bytes that are in the buffer then. The loop goes on
behind some tries (`Goes`), and returns `OK` behind others (`Accepts`); a reply that is from an
earlier exchange is accepted too, if its type and status are right.
-/

namespace Xinu

open Bytes

/-- The reply in the buffer is one to this request: its sequence number is that of the exchange, its
type is the response type, its status is 0. -/
structure RdsAnswers (seq : ℤ) (mtype : ℕ) (b : ℕ → UInt8) : Prop where
  /-- Its sequence number is that of the exchange. -/
  seq : Bytes.be32 b RD_SEQ_AT = uint32 seq
  /-- Its type is the response type. -/
  type : Bytes.be16 b RD_TYPE_AT = mtype ||| RD_MSG_RESPONSE
  /-- Its status is 0. -/
  status : Bytes.be16 b RD_STATUS_AT = 0

/-- The number of 16 bits that a signed variable has got, if it is not negative. -/
theorem int16_eq_iff {x y : ℕ} (hx : x < 2 ^ 16) : int16 x = (y : ℤ) ↔ x = y ∧ y < 2 ^ 15 := by
  unfold int16
  rw [Int.bmod_def]
  split_ifs <;> omega

namespace RdsWorld

variable {w : RdsWorld} {reply : ℕ → UInt8} {seq : ℤ} {mtype i n : ℕ}

/-- A reply comes in the try. -/
def Arrives (w : RdsWorld) (i : ℕ) : Prop := (w.tries i).retval ≠ TIMEOUT ∧ (w.tries i).retval ≠ SYSERR

instance decidableArrives (w : RdsWorld) (i : ℕ) : Decidable (w.Arrives i) :=
  inferInstanceAs (Decidable ((w.tries i).retval ≠ TIMEOUT ∧ (w.tries i).retval ≠ SYSERR))

/-- The buffer before the `i`-th try: what has come was copied to its start. -/
def replyAt (w : RdsWorld) (reply : ℕ → UInt8) : ℕ → ℕ → UInt8
  | 0 => reply
  | i + 1 =>
    if w.Arrives i then overlay (w.replyAt reply i) (w.tries i).data (w.tries i).retval else w.replyAt reply i

/-- The reply of the try has a sequence number from before. -/
def Late (w : RdsWorld) (reply : ℕ → UInt8) (seq : ℤ) (i : ℕ) : Prop :=
  w.Arrives i ∧ Bytes.be32 (w.replyAt reply (i + 1)) RD_SEQ_AT < uint32 seq

instance decidableLate (w : RdsWorld) (reply : ℕ → UInt8) (seq : ℤ) (i : ℕ) :
    Decidable (w.Late reply seq i) :=
  inferInstanceAs (Decidable (w.Arrives i ∧ Bytes.be32 (w.replyAt reply (i + 1)) RD_SEQ_AT < uint32 seq))

/-- The flag `xmit` at the `i`-th try: behind a late reply, nothing is transmitted. -/
def xmitAt (w : RdsWorld) (reply : ℕ → UInt8) (seq : ℤ) : ℕ → Bool
  | 0 => true
  | i + 1 => ! decide (w.Late reply seq i)

/-- What is to be transmitted in the try can be. -/
def Sends (w : RdsWorld) (reply : ℕ → UInt8) (seq : ℤ) (i : ℕ) : Prop :=
  w.xmitAt reply seq i = true → (w.tries i).sent = true

/-- The type in the buffer is the response type. -/
def Typed (mtype : ℕ) (b : ℕ → UInt8) : Prop :=
  Bytes.be16 b RD_TYPE_AT = mtype ||| RD_MSG_RESPONSE ∧ mtype ||| RD_MSG_RESPONSE < 2 ^ 15

instance decidableTyped (mtype : ℕ) (b : ℕ → UInt8) : Decidable (Typed mtype b) :=
  inferInstanceAs (Decidable (Bytes.be16 b RD_TYPE_AT = mtype ||| RD_MSG_RESPONSE ∧
    mtype ||| RD_MSG_RESPONSE < 2 ^ 15))

/-- The loop goes on behind the try: nothing comes, or the reply has a later sequence number or
another type. -/
def Goes (w : RdsWorld) (reply : ℕ → UInt8) (seq : ℤ) (mtype i : ℕ) : Prop :=
  w.Sends reply seq i ∧ ((w.tries i).retval = TIMEOUT ∨
    w.Arrives i ∧ (uint32 seq < Bytes.be32 (w.replyAt reply (i + 1)) RD_SEQ_AT ∨
      ¬ Typed mtype (w.replyAt reply (i + 1))))

/-- The try brings a reply that has no later sequence number, has the response type and status 0. -/
def Accepts (w : RdsWorld) (reply : ℕ → UInt8) (seq : ℤ) (mtype i : ℕ) : Prop :=
  w.Sends reply seq i ∧ w.Arrives i ∧ Bytes.be32 (w.replyAt reply (i + 1)) RD_SEQ_AT ≤ uint32 seq ∧
    Typed mtype (w.replyAt reply (i + 1)) ∧ Bytes.be16 (w.replyAt reply (i + 1)) RD_STATUS_AT = 0

/-- The buffer behind a try in which a reply comes. -/
theorem replyAt_arrives (h : w.Arrives i) :
    w.replyAt reply (i + 1) = overlay (w.replyAt reply i) (w.tries i).data (w.tries i).retval := if_pos h

/-- The loop goes on from its `i`-th try, or ends with it. -/
theorem rdsRetry_succ (w : RdsWorld) (reply : ℕ → UInt8) (seq : ℤ) (mtype i n : ℕ) :
    (w.Goes reply seq mtype i → rdsRetry w seq mtype (n + 1) i (w.xmitAt reply seq i) (w.replyAt reply i) =
      rdsRetry w seq mtype n (i + 1) (w.xmitAt reply seq (i + 1)) (w.replyAt reply (i + 1))) ∧
    (w.Accepts reply seq mtype i →
      rdsRetry w seq mtype (n + 1) i (w.xmitAt reply seq i) (w.replyAt reply i) =
        ⟨OK, w.replyAt reply (i + 1), i⟩) ∧
    (¬ w.Goes reply seq mtype i → ¬ w.Accepts reply seq mtype i →
      ∃ b, rdsRetry w seq mtype (n + 1) i (w.xmitAt reply seq i) (w.replyAt reply i) = ⟨SYSERR, b, i⟩) := by
  rw [rdsRetry]
  dsimp only
  by_cases hsend : w.xmitAt reply seq i = true ∧ ¬ (w.tries i).sent = true
  · -- nothing can be sent
    have hno : ¬ w.Sends reply seq i := fun h => hsend.2 (h hsend.1)
    rw [if_pos hsend]
    exact ⟨fun h => absurd h.1 hno, fun h => absurd h.1 hno, fun _ _ => ⟨_, rfl⟩⟩
  have hsends : w.Sends reply seq i := fun hx => by_contra fun hs => hsend ⟨hx, hs⟩
  rw [if_neg hsend]
  by_cases htime : (w.tries i).retval = TIMEOUT
  · have harr : ¬ w.Arrives i := fun h => h.1 htime
    have hlate : ¬ w.Late reply seq i := fun h => harr h.1
    have hnext : w.xmitAt reply seq (i + 1) = true := by simp [xmitAt, hlate]
    have hsame : w.replyAt reply (i + 1) = w.replyAt reply i := if_neg harr
    rw [if_pos htime, hnext, hsame]
    exact ⟨fun _ => rfl, fun h => absurd h.2.1 harr, fun h _ => absurd ⟨hsends, .inl htime⟩ h⟩
  rw [if_neg htime]
  by_cases herr : (w.tries i).retval = SYSERR
  · have harr : ¬ w.Arrives i := fun h => h.2 herr
    rw [if_pos herr]
    exact ⟨fun h => h.2.elim (fun h => absurd h htime) fun h => absurd h.1 harr,
      fun h => absurd h.2.1 harr, fun _ _ => ⟨_, rfl⟩⟩
  -- a reply has come: the sequence number, the type and the status are looked at in this order
  have harr : w.Arrives i := ⟨htime, herr⟩
  rw [if_neg herr, ← replyAt_arrives harr, ntohl_le32, ntohs_le16, ntohs_le16]
  generalize hb : w.replyAt reply (i + 1) = b
  have hgoes : w.Goes reply seq mtype i ↔ uint32 seq < Bytes.be32 b RD_SEQ_AT ∨ ¬ Typed mtype b := by
    rw [Goes, hb]
    exact ⟨fun h => h.2.elim (fun h => absurd h htime) And.right, fun h => ⟨hsends, .inr ⟨harr, h⟩⟩⟩
  have haccepts : w.Accepts reply seq mtype i ↔ Bytes.be32 b RD_SEQ_AT ≤ uint32 seq ∧
      Typed mtype b ∧ Bytes.be16 b RD_STATUS_AT = 0 := by
    rw [Accepts, hb]
    exact ⟨fun h => h.2.2, fun h => ⟨hsends, harr, h⟩⟩
  have hxmit : w.xmitAt reply seq (i + 1) = ! decide (Bytes.be32 b RD_SEQ_AT < uint32 seq) := by
    simp only [xmitAt, Late, hb, harr, true_and]
  have htype : int16 (Bytes.be16 b RD_TYPE_AT) ≠ ((mtype ||| RD_MSG_RESPONSE : ℕ) : ℤ) ↔ ¬ Typed mtype b :=
    (int16_eq_iff (Bytes.be16_lt _ _)).not
  rw [hgoes, haccepts, hxmit]
  by_cases hafter : ¬ Bytes.be32 b RD_SEQ_AT < uint32 seq ∧ Bytes.be32 b RD_SEQ_AT ≠ uint32 seq
  · have hlt : uint32 seq < Bytes.be32 b RD_SEQ_AT := by omega
    rw [if_pos hafter, decide_eq_false hafter.1]
    exact ⟨fun _ => rfl, fun h => absurd h.1 (Nat.not_le.mpr hlt), fun h => absurd (.inl hlt) h⟩
  have hle : Bytes.be32 b RD_SEQ_AT ≤ uint32 seq := by omega
  rw [if_neg hafter]
  by_cases hty : Typed mtype b
  · rw [if_neg (htype.not.mpr (not_not.mpr hty))]
    by_cases hstatus : Bytes.be16 b RD_STATUS_AT ≠ 0
    · rw [if_pos hstatus]
      exact ⟨fun h => h.elim (fun h => absurd hle (Nat.not_le.mpr h)) fun h => absurd hty h,
        fun h => absurd h.2.2 hstatus, fun _ _ => ⟨_, rfl⟩⟩
    · rw [if_neg hstatus]
      exact ⟨fun h => h.elim (fun h => absurd hle (Nat.not_le.mpr h)) fun h => absurd hty h, fun _ => rfl,
        fun _ h => absurd ⟨hle, hty, not_not.mp hstatus⟩ h⟩
  · rw [if_pos (htype.mpr hty)]
    exact ⟨fun _ => rfl, fun h => absurd h.2.1 hty, fun h => absurd (.inr hty) h⟩

/-- A try after which the loop goes on is not one that accepts a reply. -/
theorem Goes.not_accepts (h : w.Goes reply seq mtype i) : ¬ w.Accepts reply seq mtype i := by
  intro ha
  rcases h.2 with htime | ⟨-, hlt | hty⟩
  · exact ha.2.1.1 htime
  · exact absurd ha.2.2.1 (Nat.not_le.mpr hlt)
  · exact hty ha.2.2.2.1

/-- The loop comes to the try: it goes on behind all the tries from the `i`-th one up to there. -/
def Comes (w : RdsWorld) (reply : ℕ → UInt8) (seq : ℤ) (mtype i k : ℕ) : Prop :=
  ∀ j, i ≤ j → j < k → w.Goes reply seq mtype j

/-- One try more. -/
theorem Comes.cons {k : ℕ} (hg : w.Goes reply seq mtype i) (h : w.Comes reply seq mtype (i + 1) k) :
    w.Comes reply seq mtype i k := by
  intro j hij hjk
  rcases Nat.eq_or_lt_of_le hij with rfl | hlt
  · exact hg
  · exact h j hlt hjk

/-- How the loop ends: in the first try that it does not go on behind, with `OK` if it accepts the
reply of this one and with `SYSERR` if not; or behind the last try. -/
inductive Ends (w : RdsWorld) (reply : ℕ → UInt8) (seq : ℤ) (mtype i n : ℕ) (e : RdsEnd) : Prop where
  | accepts (hi : i ≤ e.i) (hlt : e.i < i + n) (hc : w.Comes reply seq mtype i e.i)
    (ha : w.Accepts reply seq mtype e.i)
    (hret : e.retval = OK) (hreply : e.reply = w.replyAt reply (e.i + 1))
  | fails (hi : i ≤ e.i) (hlt : e.i < i + n) (hc : w.Comes reply seq mtype i e.i)
    (hg : ¬ w.Goes reply seq mtype e.i)
    (ha : ¬ w.Accepts reply seq mtype e.i) (hret : e.retval = SYSERR)
  | exhausted (hi : e.i = i + n) (hc : w.Comes reply seq mtype i e.i) (hret : e.retval = TIMEOUT)

/-- The loop ends so. The induction is on the tries that are left. -/
theorem rdsRetry_ends (w : RdsWorld) (reply : ℕ → UInt8) (seq : ℤ) (mtype i n : ℕ) :
    w.Ends reply seq mtype i n (rdsRetry w seq mtype n i (w.xmitAt reply seq i) (w.replyAt reply i)) := by
  have hnone : w.Comes reply seq mtype i i := fun j hij hji => absurd hij (Nat.not_le.mpr hji)
  induction n generalizing i with
  | zero => exact .exhausted rfl hnone rfl
  | succ n ih =>
    obtain ⟨hgo, haccept, hstop⟩ := rdsRetry_succ w reply seq mtype i n
    by_cases hg : w.Goes reply seq mtype i
    · rw [hgo hg]
      have hnext := ih (i + 1) fun j hij hji => absurd hij (Nat.not_le.mpr hji)
      cases hnext with
      | accepts hi hlt hc ha hret hreply => exact .accepts (by omega) (by omega) (hc.cons hg) ha hret hreply
      | fails hi hlt hc hg' ha hret => exact .fails (by omega) (by omega) (hc.cons hg) hg' ha hret
      | exhausted hi hc hret => exact .exhausted (by omega) (hc.cons hg) hret
    · -- the loop ends here
      by_cases ha : w.Accepts reply seq mtype i
      · rw [haccept ha]
        exact .accepts (le_refl i) (Nat.lt_add_of_pos_right n.succ_pos) hnone ha rfl rfl
      · obtain ⟨b, hb⟩ := hstop hg ha
        rw [hb]
        exact .fails (le_refl i) (Nat.lt_add_of_pos_right n.succ_pos) hnone hg ha rfl

/-- The loop ends in a try that it comes to and does not go on behind. -/
theorem Ends.eq_of_comes {n k : ℕ} {e : RdsEnd} (h : w.Ends reply seq mtype i n e)
    (hik : i ≤ k) (hk : k < i + n)
    (hc : w.Comes reply seq mtype i k) (hg : ¬ w.Goes reply seq mtype k) : e.i = k := by
  have hle : e.i ≤ k := by
    by_contra hgt
    cases h with
    | accepts hi hlt hc' => exact hg (hc' k hik (Nat.not_le.mp hgt))
    | fails hi hlt hc' => exact hg (hc' k hik (Nat.not_le.mp hgt))
    | exhausted hi hc' => exact hg (hc' k hik (Nat.not_le.mp hgt))
  rcases Nat.eq_or_lt_of_le hle with heq | hlt
  · exact heq
  · -- no try before `k` ends the loop
    cases h with
    | accepts hi hlt' hc' ha => exact absurd ha (hc e.i hi hlt).not_accepts
    | fails hi hlt' hc' hg' => exact absurd (hc e.i hi hlt) hg'
    | exhausted hi => omega

/-- The port is registered, and there is an IP address. -/
def Ready (w : RdsWorld) (c : RdsComm) : Prop :=
  (c.rd_registered = true ∨ w.slot ≠ SYSERR) ∧ (w.ipvalid = true ∨ w.localip ≠ SYSERR)

end RdsWorld

variable {c : RdsComm} {w : RdsWorld} {reply b : ℕ → UInt8} {mtype : ℕ}

/-- If the port cannot be registered, or there is no IP address, nothing is exchanged. -/
theorem rdscomm_not_ready (h : ¬ w.Ready c) : (rdscomm c w mtype reply).1 = ⟨SYSERR, reply, 0⟩ := by
  unfold rdscomm
  by_cases hreg : ! c.rd_registered ∧ w.slot = SYSERR
  · rw [if_pos hreg]
  · have hip : ! w.ipvalid ∧ w.localip = SYSERR := by
      unfold RdsWorld.Ready at h
      grind
    rw [if_neg hreg]
    dsimp only
    rw [if_pos hip]

/-- Otherwise it is what the loop makes of the next sequence number. -/
theorem rdscomm_ready (h : w.Ready c) :
    w.Ends reply c.rd_seq mtype 0 RD_RETRIES (rdscomm c w mtype reply).1 := by
  have hreg : ¬ (! c.rd_registered ∧ w.slot = SYSERR) := by
    have h₁ := h.1
    grind
  have hip : ¬ (! w.ipvalid ∧ w.localip = SYSERR) := by
    have h₂ := h.2
    grind
  have hloop : (rdscomm c w mtype reply).1 = rdsRetry w c.rd_seq mtype RD_RETRIES 0 true reply := by
    unfold rdscomm
    rw [if_neg hreg]
    dsimp only
    rw [if_neg hip]
    split <;> rfl
  rw [hloop]
  exact RdsWorld.rdsRetry_ends w reply c.rd_seq mtype 0 RD_RETRIES

/-- A reply that is from before is received in the try. -/
def RdsWorld.Stale (w : RdsWorld) (reply : ℕ → UInt8) (seq : ℤ) (i : ℕ) : Prop :=
  w.Sends reply seq i ∧ w.Late reply seq i

/-- A reply that is accepted, and is not from before, is the one to the request. -/
theorem RdsWorld.Accepts.answers {seq : ℤ} {k : ℕ} (h : w.Accepts reply seq mtype k) :
    RdsAnswers seq mtype (w.replyAt reply (k + 1)) ↔ ¬ w.Late reply seq k := by
  obtain ⟨-, harr, hle, hty, hstatus⟩ := h
  refine ⟨fun ha hlate => absurd ha.seq (Nat.ne_of_lt hlate.2), fun hlate => ⟨?_, hty.1, hstatus⟩⟩
  have hge : ¬ Bytes.be32 (w.replyAt reply (k + 1)) RD_SEQ_AT < uint32 seq := fun hlt => hlate ⟨harr, hlt⟩
  omega

/-- The loop goes on behind a reply from before exactly if that has another type. -/
theorem RdsWorld.Stale.goes_iff {seq : ℤ} {k : ℕ} (h : w.Stale reply seq k) :
    w.Goes reply seq mtype k ↔ ¬ RdsWorld.Typed mtype (w.replyAt reply (k + 1)) := by
  obtain ⟨hsends, harr, hlt⟩ := h
  constructor
  · rintro ⟨-, htime | ⟨-, hafter | hty⟩⟩
    · exact absurd htime harr.1
    · exact absurd hafter (Nat.not_lt.mpr hlt.le)
    · exact hty
  · exact fun hty => ⟨hsends, .inr ⟨harr, .inr hty⟩⟩

/-- What an exchange promises about the replies: `OK` is returned with the reply to this request in
the buffer, and no exchange ends in a try in which a reply from before is received: such replies are
skipped. -/
structure RdsMatches (c : RdsComm) (w : RdsWorld) (mtype : ℕ) (reply : ℕ → UInt8) (e : RdsEnd) : Prop where
  /-- With `OK`, the reply to this request is in the buffer. -/
  answers : e.retval = OK → RdsAnswers c.rd_seq mtype e.reply
  /-- A reply from before does not end the exchange. -/
  skips : w.Ready c → e.i < RD_RETRIES → ¬ w.Stale reply c.rd_seq e.i

/-- For all replies, in any order: `rdscomm` returns `OK` only with a reply of this exchange in the
buffer, which has the response type and status 0, and skips the replies from before, exactly if none
of the tries that it comes to brings a reply from before that has the response type. -/
theorem rdscomm_matches : RdsMatches c w mtype reply (rdscomm c w mtype reply).1 ↔
    ¬ (w.Ready c ∧ ∃ k < RD_RETRIES, (∀ j < k, w.Goes reply c.rd_seq mtype j) ∧ w.Stale reply c.rd_seq k ∧
      RdsWorld.Typed mtype (w.replyAt reply (k + 1))) := by
  constructor
  · rintro hgood ⟨hready, k, hk, hbefore, hstale, hty⟩
    have hg : ¬ w.Goes reply c.rd_seq mtype k := fun hg => hstale.goes_iff.mp hg hty
    have hend : (rdscomm c w mtype reply).1.i = k :=
      (rdscomm_ready hready).eq_of_comes (Nat.zero_le k) (by omega) (fun j _ hj => hbefore j hj) hg
    exact hgood.skips hready (by omega) (by rwa [hend])
  · intro hno
    by_cases hready : w.Ready c
    swap
    · rw [rdscomm_not_ready hready]
      exact ⟨fun hok => absurd (show SYSERR = OK from hok) (by decide), fun h => absurd h hready⟩
    have hend : w.Ends reply c.rd_seq mtype 0 RD_RETRIES (rdscomm c w mtype reply).1 := rdscomm_ready hready
    generalize (rdscomm c w mtype reply).1 = e at hend ⊢
    -- no reply from before ends the loop
    have hskip : e.i < RD_RETRIES → w.Comes reply c.rd_seq mtype 0 e.i → ¬ w.Goes reply c.rd_seq mtype e.i →
        ¬ w.Stale reply c.rd_seq e.i := by
      intro hlt hc hg hstale
      have hty := not_not.mp (hstale.goes_iff.not.mp hg)
      exact hno ⟨hready, e.i, hlt, fun j hj => hc j (Nat.zero_le j) hj, hstale, hty⟩
    cases hend with
    | accepts hi hlt hc ha hret hreply =>
      have hnot : ¬ w.Stale reply c.rd_seq e.i := hskip (by omega) hc fun hg => hg.not_accepts ha
      refine ⟨fun _ => ?_, fun _ _ => hnot⟩
      rw [hreply]
      exact ha.answers.mpr fun hlate => hnot ⟨ha.1, hlate⟩
    | fails hi hlt hc hg ha hret =>
      exact ⟨fun hok => absurd (hret.symm.trans hok) (by decide), fun _ _ => hskip (by omega) hc hg⟩
    | exhausted hi hc hret =>
      exact ⟨fun hok => absurd (hret.symm.trans hok) (by decide), fun _ hlt => absurd hi (by omega)⟩

/-- The offset of the data in `struct rd_msg_rres`. -/
abbrev RD_DATA_AT : ℕ := 76

/-- What `rdsprocess` sees of an exchange. -/
def rdsExchange (e : RdsEnd) : Exchange (ℕ → UInt8) where
  retval := e.retval
  rd_status := ntohs (le16 e.reply RD_STATUS_AT)
  rd_data := fun i => e.reply (RD_DATA_AT + i)

/-- `rdsprocess` panics exactly if `rdscomm` does not return `OK`: its check of the status finds
nothing more. -/
theorem rdsExchange_failed :
    (rdsExchange (rdscomm c w mtype reply).1).Failed ↔ (rdscomm c w mtype reply).1.retval ≠ OK := by
  by_cases hready : w.Ready c
  swap
  · rw [rdscomm_not_ready hready]
    exact iff_of_true (.inl rfl) (show SYSERR ≠ OK by decide)
  have hend : w.Ends reply c.rd_seq mtype 0 RD_RETRIES (rdscomm c w mtype reply).1 := rdscomm_ready hready
  generalize (rdscomm c w mtype reply).1 = e at hend ⊢
  cases hend with
  | accepts hi hlt hc ha hret hreply =>
    refine iff_of_false ?_ (not_not.mpr hret)
    rintro (hsys | htime | hstatus)
    · exact absurd (hret.symm.trans hsys) (by decide)
    · exact absurd (hret.symm.trans htime) (by decide)
    · refine hstatus ?_
      show ntohs (le16 e.reply RD_STATUS_AT) = 0
      rw [hreply, ntohs_le16]
      exact ha.2.2.2.2
  | fails hi hlt hc hg ha hret => exact iff_of_true (.inl hret) (by rw [hret]; decide)
  | exhausted hi hc hret => exact iff_of_true (.inr (.inl hret)) (by rw [hret]; decide)

/-- A datagram with a message header. -/
def rdsReply (seq mtype status : UInt8) : RdsTry where
  sent := true
  retval := 72
  data := ofList [1, mtype, 0, status, 0, 0, 0, seq]

/-- The reply to the read with sequence number 4 comes late, in the exchange for the read with
sequence number 5: it is returned as the reply to this. If its status is 1, the exchange ends with
it and `SYSERR`. -/
theorem rdscomm_late : (∃ (c : RdsComm) (w : RdsWorld), c.rd_seq = 5 ∧
    (rdscomm c w 0x10 (ofList [])).1.retval = OK ∧ Bytes.be32
      (rdscomm c w 0x10 (ofList [])).1.reply RD_SEQ_AT = 4 ∧
      ¬ RdsMatches c w 0x10 (ofList []) (rdscomm c w 0x10 (ofList [])).1) ∧
    ∃ (c : RdsComm) (w : RdsWorld), c.rd_seq = 5 ∧ (rdscomm c w 0x10 (ofList [])).1.retval = SYSERR ∧
      ¬ RdsMatches c w 0x10 (ofList []) (rdscomm c w 0x10 (ofList [])).1 := by
  constructor
  · refine ⟨⟨true, 0, 5⟩, ⟨0, true, 0, fun _ => rdsReply 4 0x10 0⟩,
      rfl, by decide +kernel, by decide +kernel, fun h => ?_⟩
    have hseq := (h.answers (by decide +kernel)).seq
    revert hseq
    decide +kernel
  · refine ⟨⟨true, 0, 5⟩, ⟨0, true, 0, fun _ => rdsReply 4 0x10 1⟩, rfl, by decide +kernel, fun h => ?_⟩
    exact h.skips ⟨.inl rfl, .inl rfl⟩ (by decide +kernel) ⟨fun _ => rfl, by decide +kernel⟩

end Xinu

import Eecs482.FileServerLayout
import Mathlib.Algebra.Order.BigOperators.Group.Finset
import Mathlib.Algebra.BigOperators.Intervals

/-!
# Sending a response

`send_response` adds what `send` returns to its offset until the offset has
reached the length of the message.  Short sends and zeros are fine; the result
-1 moves the offset back, and the loop never ends.
-/

namespace Eecs482
namespace FileServer

open Finset

/-- The other end of a connection: how many bytes each call of `send` could
take, and the call from which on the peer is gone. -/
structure Peer where
  room : ℕ → ℕ
  gone : Option ℕ
  /-- There are only finitely many zeros in a row. -/
  takes : ∀ k, ∃ m, k ≤ m ∧ 0 < room m

/-- Call `k` of `send` returns -1. -/
def Peer.fails (peer : Peer) (k : ℕ) : Bool :=
  match peer.gone with
  | none => false
  | some gone => gone ≤ k

/-- The variables of `send_response`, with the bytes passed to the socket. -/
structure Sending where
  calls : ℕ := 0
  sent : ℤ := 0
  passed : List Byte := []

/-- The body of the loop of `send_response`. -/
def sendStep (peer : Peer) (message : List Byte) (s : Sending) : Sending :=
  if peer.fails s.calls then
    { s with calls := s.calls + 1, sent := s.sent - 1 }
  else
    let n := min (peer.room s.calls) (message.length - s.sent).toNat
    { calls := s.calls + 1
      sent := s.sent + n
      passed := s.passed ++ (message.drop s.sent.toNat).take n }

/-- The state after the body has been run `n` times. -/
def sendState (peer : Peer) (message : List Byte) : ℕ → Sending
  | 0 => {}
  | n + 1 => sendStep peer message (sendState peer message n)

/-- `send_response` runs the body of its loop `n` times at least. -/
def SendReaches (peer : Peer) (message : List Byte) (n : ℕ) : Prop :=
  ∀ k, 0 < k → k < n → (sendState peer message k).sent < message.length

/-- `send_response` returns after `n` rounds. -/
def SendEnds (peer : Peer) (message : List Byte) (n : ℕ) : Prop :=
  0 < n ∧ SendReaches peer message n ∧
    message.length ≤ (sendState peer message n).sent

/-- What `send_response` should do. -/
structure SendsMessage (peer : Peer) (message : List Byte) : Prop where
  ends : ∃ n, SendEnds peer message n
  offset : ∀ n, SendReaches peer message n →
    0 ≤ (sendState peer message n).sent ∧
      (sendState peer message n).sent ≤ message.length
  /-- In order and without repetition. -/
  ordered : ∀ n, SendReaches peer message n →
    (sendState peer message n).passed =
      message.take (sendState peer message n).sent.toNat
  whole : ∀ n, SendEnds peer message n → (∀ k < n, peer.fails k = false) →
    (sendState peer message n).passed = message

variable {peer : Peer} {message : List Byte} {n : ℕ}

/-- The bytes the first `n` calls could take. -/
def Peer.total (peer : Peer) (n : ℕ) : ℕ :=
  ∑ k ∈ range n, peer.room k

theorem Peer.total_mono {m n : ℕ} (hle : m ≤ n) : peer.total m ≤ peer.total n :=
  Finset.sum_le_sum_of_subset (Finset.range_subset_range.mpr hle)

theorem Peer.exists_total (peer : Peer) (length : ℕ) :
    ∃ n, length ≤ peer.total n := by
  induction length with
  | zero => exact ⟨0, Nat.zero_le _⟩
  | succ length ih =>
      obtain ⟨n, hn⟩ := ih
      obtain ⟨m, hle, hroom⟩ := peer.takes n
      have hmono := peer.total_mono hle
      refine ⟨m + 1, ?_⟩
      rw [Peer.total, Finset.sum_range_succ]
      change length + 1 ≤ peer.total m + peer.room m
      omega

theorem take_drop_min (message : List Byte) (total room : ℕ) :
    message.take total ++
        (message.drop (min total message.length)).take
          (min room (message.length - total)) =
      message.take (total + room) := by
  rw [List.take_add]
  congr 1
  rcases Nat.le_total total message.length with hle | hle
  · rw [Nat.min_eq_left hle, ← List.length_drop, ← List.take_eq_take_min]
  · rw [Nat.min_eq_right hle, List.drop_length, List.drop_of_length_le hle]
    simp

/-- As long as no call fails, what has been sent is what the calls could take,
and it is what has been passed. -/
theorem sendState_healthy
    (hhealthy : ∀ k < n, peer.fails k = false) :
    sendState peer message n =
      { calls := n
        sent := (min (peer.total n) message.length : ℕ)
        passed := message.take (peer.total n) } := by
  induction n with
  | zero => simp [sendState, Peer.total]
  | succ n ih =>
      have hlast : peer.fails n = false := hhealthy n (Nat.lt_succ_self n)
      have htotal : peer.total (n + 1) = peer.total n + peer.room n :=
        Finset.sum_range_succ _ _
      have hleft : ((message.length : ℤ) -
          (min (peer.total n) message.length : ℕ)).toNat =
            message.length - peer.total n := by
        omega
      rw [sendState, ih fun k hk => hhealthy k (Nat.lt_succ_of_lt hk), sendStep,
        if_neg (by simp [hlast]), htotal]
      dsimp only
      rw [hleft, Int.toNat_natCast, take_drop_min]
      congr 1
      omega

theorem sendState_gone
    {gone : ℕ} (hgone : peer.gone = some gone) (k : ℕ) :
    (sendState peer message (gone + k)).calls = gone + k ∧
      (sendState peer message (gone + k)).sent =
        (min (peer.total gone) message.length : ℕ) - k := by
  induction k with
  | zero =>
      have hhealthy : ∀ k < gone, peer.fails k = false := by
        intro k hk
        simpa [Peer.fails, hgone] using hk
      rw [Nat.add_zero, sendState_healthy hhealthy]
      simp
  | succ k ih =>
      obtain ⟨hcalls, hsent⟩ := ih
      have hfails : peer.fails (sendState peer message (gone + k)).calls = true := by
        rw [hcalls]
        simp [Peer.fails, hgone]
      rw [← Nat.add_assoc, sendState, sendStep, if_pos hfails]
      refine ⟨by rw [hcalls], ?_⟩
      simp only [hsent]
      omega

/-- The peer takes the whole message before it is gone, in one call at least. -/
def TakesAll (peer : Peer) (message : List Byte) : Prop :=
  ∀ gone, peer.gone = some gone → 0 < gone ∧ message.length ≤ peer.total gone

instance : Decidable (TakesAll peer message) :=
  inferInstanceAs (Decidable (∀ gone ∈ peer.gone, 0 < gone ∧ message.length ≤ peer.total gone))

theorem TakesAll.exists_ends (htakes : TakesAll peer message) :
    ∃ n, SendEnds peer message n ∧ ∀ k < n, peer.fails k = false := by
  classical
  obtain ⟨enough, hpos, hhealthy, htotal⟩ : ∃ n, 0 < n ∧
      (∀ k < n, peer.fails k = false) ∧ message.length ≤ peer.total n := by
    cases hgone : peer.gone with
    | none =>
        obtain ⟨n, hn⟩ := peer.exists_total message.length
        refine ⟨n + 1, Nat.succ_pos n, fun k _ => by simp [Peer.fails, hgone], ?_⟩
        exact hn.trans (peer.total_mono (Nat.le_succ n))
    | some gone =>
        obtain ⟨hpos, htotal⟩ := htakes gone hgone
        refine ⟨gone, hpos, fun k hk => ?_, htotal⟩
        simpa [Peer.fails, hgone] using hk
  have hexists : ∃ n, 0 < n ∧
      (message.length : ℤ) ≤ (sendState peer message n).sent := by
    refine ⟨enough, hpos, ?_⟩
    rw [sendState_healthy hhealthy]
    simpa using htotal
  have hle : Nat.find hexists ≤ enough := by
    apply Nat.find_min' hexists
    refine ⟨hpos, ?_⟩
    rw [sendState_healthy hhealthy]
    simpa using htotal
  obtain ⟨hfirst, hsent⟩ := Nat.find_spec hexists
  refine ⟨Nat.find hexists, ⟨hfirst, fun k hk hlt => ?_, hsent⟩, fun k hk => ?_⟩
  · have hmin := Nat.find_min hexists hlt
    rw [not_and, not_le] at hmin
    exact hmin hk
  · exact hhealthy k (hk.trans_le hle)

theorem SendEnds.le
    {m : ℕ} (hends : SendEnds peer message m) (hreaches : SendReaches peer message n) :
    n ≤ m := by
  by_contra hlt
  have hguard := hreaches m hends.1 (not_le.mp hlt)
  exact absurd hends.2.2 (not_le.mpr hguard)

theorem not_ends_of_gone
    {gone : ℕ} (hgone : peer.gone = some gone)
    (hshort : gone = 0 ∨ peer.total gone < message.length) :
    ¬SendEnds peer message n := by
  rintro ⟨hpos, -, hend⟩
  rcases Nat.lt_or_ge n gone with hlt | hle
  · have hhealthy : ∀ k < n, peer.fails k = false := by
      intro k hk
      simpa [Peer.fails, hgone] using hk.trans hlt
    have hmono := peer.total_mono hlt.le
    rw [sendState_healthy hhealthy] at hend
    dsimp only at hend
    omega
  · obtain ⟨k, rfl⟩ := Nat.exists_eq_add_of_le hle
    rw [(sendState_gone hgone k).2] at hend
    omega

/-- `send_response` returns if and only if the peer takes the whole message. -/
theorem exists_sendEnds_iff : (∃ n, SendEnds peer message n) ↔ TakesAll peer message := by
  constructor
  · rintro ⟨n, hends⟩ gone hgone
    by_contra hshort
    rw [not_and_or, Nat.pos_iff_ne_zero, not_not, not_le] at hshort
    exact not_ends_of_gone hgone hshort hends
  · intro htakes
    obtain ⟨n, hends, _⟩ := htakes.exists_ends
    exact ⟨n, hends⟩

/-- `send_response` sends the message and returns if and only if no call fails
before the whole message has been taken. -/
theorem sendsMessage_iff (peer : Peer) (message : List Byte) :
    SendsMessage peer message ↔ TakesAll peer message := by
  constructor
  · intro hsends
    exact exists_sendEnds_iff.mp hsends.ends
  · intro htakes
    obtain ⟨last, hends, hhealthy⟩ := htakes.exists_ends
    have hstate : ∀ n, SendReaches peer message n → sendState peer message n =
        { calls := n
          sent := (min (peer.total n) message.length : ℕ)
          passed := message.take (peer.total n) } := by
      intro n hreaches
      exact sendState_healthy fun k hk => hhealthy k (hk.trans_le (hends.le hreaches))
    refine ⟨⟨last, hends⟩, fun n hreaches => ?_, fun n hreaches => ?_,
      fun n hend _ => ?_⟩
    · rw [hstate n hreaches]
      dsimp only
      omega
    · rw [hstate n hreaches]
      dsimp only
      rw [Int.toNat_natCast, ← List.take_eq_take_min]
    · obtain ⟨_, hreaches, hlength⟩ := hend
      rw [hstate n hreaches] at hlength ⊢
      dsimp only at hlength ⊢
      exact List.take_of_length_le (by omega)

/-- A peer that is gone before the first call. -/
def absentPeer : Peer where
  room := fun _ => 1
  gone := some 0
  takes := fun k => ⟨k, le_rfl, Nat.one_pos⟩

/-- A peer that takes one byte a call for ever. -/
def stayingPeer : Peer where
  room := fun _ => 1
  gone := none
  takes := fun k => ⟨k, le_rfl, Nat.one_pos⟩

/-- The loop does not end, and its offset leaves the message. -/
theorem not_sendsMessage :
    (sendState absentPeer [70, 0] 1).sent = -1 ∧ ¬SendsMessage absentPeer [70, 0] := by
  refine ⟨rfl, fun hsends => ?_⟩
  obtain ⟨n, hends⟩ := hsends.ends
  exact not_ends_of_gone rfl (.inl rfl) hends

end FileServer
end Eecs482

import YcsbC.Foundation.Words
import YcsbC.Xihu.Client

/-!
# One transfer

A call of `read` or `write` is a transfer of consecutive blocks. The number of a block and its
place in memory are computed in four places of the client: in the two initial loops and in the two
branches of `cont_func`, each with its own mixture of integer types. For block numbers that an
`int` can hold, all four fill a request buffer in one and the same way.

## Main definitions

* `Transfer`: the arguments of a call.
* `Transfer.fill`: the request for the `i`-th block of a transfer.
* `Transfer.mission`: the `Mission` of a transfer.

## Main results

* `Transfer.startRounds_eq`, `Transfer.start_eq`, `Transfer.contFunc_eq`: the calls and the
  continuation in these terms.
-/

namespace YcsbC

open XihuClient

/-- The arguments of a call of `XihuClient::read` or `XihuClient::write`. -/
structure Transfer where
  type : MsgType
  blockID : UInt64
  len : UInt64
  buf : UInt64

namespace Transfer

/-- The block numbers are those of an `int`. -/
def InRange (t : Transfer) : Prop := t.blockID.toNat + t.len.toNat ≤ 2 ^ 31

/-- The call up to its waiting loop. -/
def start (t : Transfer) : XihuClient → Option XihuClient :=
  match t.type with
  | .Read => XihuClient.read t.blockID t.len t.buf
  | .Write => XihuClient.write t.blockID t.len t.buf

/-- The call after `n` rounds of its initial loop. -/
def startRounds (t : Transfer) (n : ℕ) (x : XihuClient) : Option XihuClient :=
  let nxt := toInt64 (min piplinePktDepth t.len)
  match t.type with
  | .Read =>
    (List.range n).foldlM (fun x i => x.sendRead (t.blockID + UInt64.ofNat i).toUInt32)
      { x with ms := ⟨.Read, toInt64 t.blockID, nxt, toInt64 t.len, nxt, t.buf⟩ }
  | .Write =>
    (List.range n).foldlM (fun x i => x.sendWrite (t.blockID + UInt64.ofNat i).toUInt32
        (t.buf + UInt64.ofNat i * UInt64.ofNat blockSize))
      { x with ms := ⟨.Write, toInt64 t.blockID, nxt, toInt64 t.len, nxt, t.buf⟩ }

/-- The number of requests that the initial loop enqueues. -/
def depth (t : Transfer) : ℕ := min piplinePktDepth.toNat t.len.toNat

/-- The mission of the transfer when its counter is `n`. -/
def mission (t : Transfer) (n : ℕ) : Mission :=
  ⟨t.type, t.blockID.toNat, n, t.len.toNat, t.depth, t.buf⟩

/-- The number of the `i`-th block. -/
def bid (t : Transfer) (i : ℕ) : UInt32 := UInt32.ofNat (t.blockID.toNat + i)

/-- The place in memory of the `i`-th block. -/
def addr (t : Transfer) (i : ℕ) : UInt64 := t.buf + UInt64.ofNat (i * blockSize)

/-- The request for the `i`-th block, put into a request buffer. -/
def fill (t : Transfer) (m : Memory) (i : ℕ) (msg : MsgBuffer) : MsgBuffer :=
  match t.type with
  | .Read => { msg with type := .Read, bid := t.bid i, dataSize := sizeofCommonMsg }
  | .Write => ⟨.Write, t.bid i, m.load (t.addr i), sizeofCommonMsg + blockSize⟩

/-- The memory after a response has been handled. -/
def receive (t : Transfer) (resp : MsgBuffer) (m : Memory) : Memory :=
  match t.type with
  | .Read => m.store (t.buf + UInt64.ofInt (resp.bid.toNat - t.blockID.toNat) *
      UInt64.ofNat blockSize) resp.block
  | .Write => m

variable {t : Transfer}

/-! ### Conversions -/

theorem toInt64_of_lt {n : UInt64} (h : n.toNat < 2 ^ 63) : toInt64 n = n.toNat := by
  exact Int.bmod_eq_of_le_mul_two (by omega) (by omega)

/-! ### The calls and the continuation -/

theorem depth_le (t : Transfer) : t.depth ≤ t.len.toNat := Nat.min_le_right _ _

theorem depth_le_thirty (t : Transfer) : t.depth ≤ 30 := Nat.min_le_left _ _

theorem depth_pos (h : 0 < t.len.toNat) : 0 < t.depth :=
  Nat.lt_min.2 ⟨by decide, h⟩

theorem toInt64_nxt (ht : t.InRange) : toInt64 (min piplinePktDepth t.len) = t.depth := by
  have hrange : t.blockID.toNat + t.len.toNat ≤ 2 ^ 31 := ht
  have hmin := toNat_min piplinePktDepth t.len
  rw [toInt64_of_lt (by omega), hmin, depth]

/-- Some rounds of the initial loops. -/
theorem startRounds_eq (ht : t.InRange) (n : ℕ) (x : XihuClient) :
    t.startRounds n x = (List.range n).foldlM (fun x i => x.send (t.fill x.mem i))
      { x with ms := t.mission t.depth } := by
  have hrange : t.blockID.toNat + t.len.toNat ≤ 2 ^ 31 := ht
  have hnxt := toInt64_nxt ht
  obtain ⟨type, blockID, len, buf⟩ := t
  dsimp only at hrange hnxt
  have hblockID := toInt64_of_lt (n := blockID) (by omega)
  have hlen := toInt64_of_lt (n := len) (by omega)
  cases type with
  | Read =>
    simp only [startRounds, hnxt, hblockID, hlen, toUInt32_add]
    rfl
  | Write =>
    simp only [startRounds, hnxt, hblockID, hlen, toUInt32_add, ← UInt64.ofNat_mul]
    rfl

/-- The calls are all rounds of their loops. -/
theorem start_eq_startRounds (ht : t.InRange) (x : XihuClient) :
    t.start x = t.startRounds t.depth x := by
  have hnxt := congrArg Int.toNat (toInt64_nxt ht)
  rw [Int.toNat_natCast] at hnxt
  rw [← hnxt]
  obtain ⟨type, blockID, len, buf⟩ := t
  cases type <;> rfl

/-- The initial loops. -/
theorem start_eq (ht : t.InRange) (x : XihuClient) :
    t.start x = (List.range t.depth).foldlM (fun x i => x.send (t.fill x.mem i))
      { x with ms := t.mission t.depth } :=
  (start_eq_startRounds ht x).trans (startRounds_eq ht t.depth x)

/-- The continuation: the buffers are put back, a block that has been read is stored, and the next
request is sent as long as there is one. -/
theorem contFunc_eq {x : XihuClient} {n : ℕ} (hms : x.ms = t.mission n)
    (hn : n < 2 ^ 32) (k : ℕ) :
    x.contFunc k =
      let x' := { x with
        avail := x.avail ++ [k], ms := t.mission (n + 1), mem := t.receive (x.resps k) x.mem }
      if n < t.len.toNat then x'.send (t.fill x'.mem n) else some x' := by
  obtain ⟨ms, reqs, resps, avail, mem, rpc⟩ := x
  obtain ⟨type, blockID, len, buf⟩ := t
  dsimp only at hms
  subst hms
  have hge : (n : ℤ) ≥ (len.toNat : ℤ) ↔ ¬ n < len.toNat := by omega
  cases type with
  | Read =>
    simp only [contFunc, mission, toNat_ofInt hn, ofInt_add, hge, ite_not]
    rfl
  | Write =>
    simp only [contFunc, mission, toNat_ofInt hn, toUInt64_ofInt hn, ofInt_add,
      ← UInt64.ofNat_mul, hge, ite_not]
    rfl

/-! ### The requests of a transfer -/

/-- The message asks for the `i`-th block; when it is to be written, it carries the block that was
in the memory `m`. -/
structure Asks (t : Transfer) (m : Memory) (i : ℕ) (msg : MsgBuffer) : Prop where
  type : msg.type = t.type
  bid : msg.bid = t.bid i
  block : t.type = .Write → msg.block = m.load (t.addr i)
  dataSize : t.type = .Write → msg.dataSize = sizeofCommonMsg + blockSize

theorem asks_fill {m m' : Memory} (hm : t.type = .Write → m' = m) (i : ℕ) (msg : MsgBuffer) :
    t.Asks m i (t.fill m' i msg) := by
  obtain ⟨type, blockID, len, buf⟩ := t
  cases type with
  | Read => exact ⟨rfl, rfl, (fun h => by cases h), (fun h => by cases h)⟩
  | Write => exact ⟨rfl, rfl, fun h => congrArg (Memory.load · _) (hm h), fun _ => rfl⟩

/-- Writing does not change the memory. -/
theorem receive_of_write (ht : t.type = .Write) (resp : MsgBuffer) (m : Memory) :
    t.receive resp m = m := by
  rw [receive, ht]

theorem toNat_bid (ht : t.InRange) {i : ℕ} (hi : i < t.len.toNat) :
    (t.bid i).toNat = t.blockID.toNat + i := by
  have hrange : t.blockID.toNat + t.len.toNat ≤ 2 ^ 31 := ht
  rw [bid, UInt32.toNat_ofNat']
  omega

end Transfer

end YcsbC

import Mathlib.Algebra.Group.Nat.Defs
import Mathlib.Algebra.Ring.Int.Defs
import Mathlib.Logic.Function.Basic
import Mathlib.Tactic.Common

/-!
# The client of the block servers

`XihuClient` moves blocks between the memory of the benchmark and a block server
(`db/xihu_client.h`, `db/xihu_common.h`). A call of `read` or `write` enqueues its first requests
in a loop and then runs the event loop of the RPC library until it is done; the library calls
`cont_func` when the response to a request has arrived, and `cont_func` enqueues the next request.
The request and response buffers are shared by all calls and handed out through the queue `avail`.

The RPC library is not part of the repository. Here it is what the client sees of it: the requests
that it has taken and the responses that it is about to hand over.

## Main definitions

* `MsgBuffer`, `Mission`, `Rpc`, `XihuClient`: messages, the call in progress, the library, and
  the state of the client.
* `XihuClient.sendRead`, `sendWrite`: how a request is put together and enqueued.
* `XihuClient.contFunc`: `cont_func`.
* `XihuClient.read`, `write`: the two calls up to their waiting loops, and `XihuClient.Waits`.
-/

namespace YcsbC

/-! ### Messages and memory -/

/-- `MsgType`. -/
inductive MsgType where
  | Read
  | Write
  deriving DecidableEq, Repr

/-- `sizeof(CommonMsg)`: the type, three bytes of padding, and the block number. -/
def sizeofCommonMsg : ℕ := 8

/-- `BLOCKSIZE`. -/
def blockSize : ℕ := 3824 - sizeofCommonMsg

/-- `MSG_BUFFER_NUM`. -/
def msgBufferNum : ℕ := 50

/-- `PIPLINE_PKT_DEPTH`. -/
def piplinePktDepth : UInt64 := 30

/-- The bytes of one block. -/
abbrev Block := Fin blockSize → UInt8

/-- The memory of the process. -/
abbrev Memory := UInt64 → UInt8

namespace Memory

/-- The block at an address. -/
def load (m : Memory) (addr : UInt64) : Block := fun j => m (addr + UInt64.ofNat j)

/-- `memcpy` of one block to an address. -/
def store (m : Memory) (addr : UInt64) (block : Block) : Memory := fun a =>
  if h : (a - addr).toNat < blockSize then block ⟨(a - addr).toNat, h⟩ else m a

end Memory

/-- `erpc::MsgBuffer` with a `CommonMsg` and the block behind it; `dataSize` is the size that
`resize_msg_buffer` has set. -/
structure MsgBuffer where
  type : MsgType
  bid : UInt32
  block : Block
  dataSize : ℕ

/-- `Mission`. -/
structure Mission where
  type : MsgType
  bid : ℤ
  nxt : ℤ
  tot : ℤ
  pip : ℤ
  ptr : UInt64

/-- A request that has been enqueued: the index of its buffers, which `cont_func` gets back, and
what the request buffer held. -/
structure Request where
  k : ℕ
  msg : MsgBuffer

/-- The RPC library: the requests without a response, the requests whose response has not been
handed over, and all requests that have ever been enqueued. -/
structure Rpc where
  requests : List Request
  responses : List (Request × MsgBuffer)
  sent : List Request

/-- The global variables of the client, with the memory of the process. -/
structure XihuClient where
  ms : Mission
  reqs : ℕ → MsgBuffer
  resps : ℕ → MsgBuffer
  avail : List ℕ
  mem : Memory
  rpc : Rpc

namespace XihuClient

/-- The client after its constructor. The buffers and the memory hold anything. -/
def init (reqs resps : ℕ → MsgBuffer) (mem : Memory) : XihuClient where
  ms := ⟨.Read, 0, 0, 0, 0, 0⟩
  reqs := reqs
  resps := resps
  avail := List.range msgBufferNum
  mem := mem
  rpc := ⟨[], [], []⟩

/-! ### Requests -/

/-- `rpc->enqueue_request` with the buffers `k`. -/
def enqueueRequest (k : ℕ) (x : XihuClient) : XihuClient :=
  { x with rpc := { x.rpc with
      requests := x.rpc.requests ++ [⟨k, x.reqs k⟩], sent := x.rpc.sent ++ [⟨k, x.reqs k⟩] } }

/-- Take the first buffers of `avail`, fill the request buffer and enqueue the request. There is no
result when `avail` is empty: `front` is undefined then. -/
def send (fill : MsgBuffer → MsgBuffer) (x : XihuClient) : Option XihuClient :=
  match x.avail with
  | [] => none
  | k :: avail => some (enqueueRequest k
      { x with avail := avail, reqs := Function.update x.reqs k (fill (x.reqs k)) })

/-- Enqueue a request to read a block. The bytes behind the header are left as they are. -/
def sendRead (bid : UInt32) (x : XihuClient) : Option XihuClient :=
  x.send fun msg => { msg with type := .Read, bid := bid, dataSize := sizeofCommonMsg }

/-- Enqueue a request to write the block at the address `src`. -/
def sendWrite (bid : UInt32) (src : UInt64) (x : XihuClient) : Option XihuClient :=
  x.send fun _ => ⟨.Write, bid, x.mem.load src, sizeofCommonMsg + blockSize⟩

/-! ### The continuation -/

/-- `cont_func`, for the buffers `cbctx`. -/
def contFunc (cbctx : ℕ) (x : XihuClient) : Option XihuClient :=
  let seq : UInt32 := UInt32.ofInt x.ms.nxt
  let x := { x with avail := x.avail ++ [cbctx], ms := { x.ms with nxt := x.ms.nxt + 1 } }
  match x.ms.type with
  | .Write =>
    if (seq.toNat : ℤ) ≥ x.ms.tot then some x
    else x.sendWrite (UInt32.ofInt (x.ms.bid + seq.toNat))
      (x.ms.ptr + seq.toUInt64 * UInt64.ofNat blockSize)
  | .Read =>
    let rcvmsg := x.resps cbctx
    let dst := x.ms.ptr + UInt64.ofInt (rcvmsg.bid.toNat - x.ms.bid) * UInt64.ofNat blockSize
    let x := { x with mem := x.mem.store dst rcvmsg.block }
    if (seq.toNat : ℤ) ≥ x.ms.tot then some x
    else x.sendRead (UInt32.ofInt (x.ms.bid + seq.toNat))

/-! ### The calls -/

/-- The conversion of a `uint64_t` to `int64_t`. -/
def toInt64 (n : UInt64) : ℤ := Int.bmod n.toNat (2 ^ 64)

/-- `XihuClient::write`, up to the waiting loop. -/
def write (blockID len srcBuf : UInt64) (x : XihuClient) : Option XihuClient :=
  let nxt := toInt64 (min piplinePktDepth len)
  (List.range nxt.toNat).foldlM
    (fun x i => x.sendWrite (blockID + UInt64.ofNat i).toUInt32
      (srcBuf + UInt64.ofNat i * UInt64.ofNat blockSize))
    { x with ms := ⟨.Write, toInt64 blockID, nxt, toInt64 len, nxt, srcBuf⟩ }

/-- `XihuClient::read`, up to the waiting loop. -/
def read (blockID len dstBuf : UInt64) (x : XihuClient) : Option XihuClient :=
  let nxt := toInt64 (min piplinePktDepth len)
  (List.range nxt.toNat).foldlM
    (fun x i => x.sendRead (blockID + UInt64.ofNat i).toUInt32)
    { x with ms := ⟨.Read, toInt64 blockID, nxt, toInt64 len, nxt, dstBuf⟩ }

/-- The condition of the waiting loops. -/
def Waits (x : XihuClient) : Prop := x.ms.nxt < x.ms.tot + x.ms.pip

instance (x : XihuClient) : Decidable x.Waits :=
  inferInstanceAs (Decidable (x.ms.nxt < x.ms.tot + x.ms.pip))

end XihuClient

end YcsbC

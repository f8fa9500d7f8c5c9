import YcsbC.Redis.Commands
import YcsbC.Redis.RedisDB

/-!
# A context and its buffers

A `redisContext` holds an output buffer and a reader. `redisAppendCommand` appends the text of a
command to the output buffer; `redisGetReply` first asks the reader, and if that has no reply it
writes the whole output buffer and then reads until there is one (`redis/hiredis/hiredis.c`, lines
779 to 1021). How much a `write` or a `read` moves is open, and each may be interrupted or fail.

## Main definitions

* `ByteContext`: a context.
* `Wire`: the connection, with what the calls of `write` and `read` return; what the server sends is
  a function of what it has received.
* `redisBufferWrite`, `redisBufferRead`, `redisGetReply`: the functions; they are `none` if a call
  does not return.
* `runHiredis`: the calls of hiredis that a client makes.
-/

namespace YcsbC

/-- The `errno` of a `write` or a `read`. -/
inductive Errno where
  | eagain
  | eintr
  | other (code : ℕ)
  deriving DecidableEq, Repr

/-- The error of a context; the text of an input or output error is that of its `errno`. -/
inductive ContextError where
  | io (errno : Errno)
  | eof (errstr : Str)
  | other (errstr : Str)
  | reader (e : ReaderError)
  deriving DecidableEq, Repr

/-- A `redisContext`; `block` is the flag `REDIS_BLOCK`. In the code the lengths of its two buffers
are `int`s, as those of every `sds`: they stay below 2^31. -/
structure ByteContext where
  err : Option ContextError
  block : Bool
  obuf : Str
  reader : RedisReader

/-- The connection. `sent` has been written, `received` is how many bytes of the answer have been
read, and the lists are what the calls of `write` and `read` return: a number of bytes, which are
there at least if there are so many, or an error. A `read` of no bytes is the end of the stream. -/
structure Wire where
  sent : Str
  received : ℕ
  writes : List (Except Errno ℕ)
  reads : List (Except Errno ℕ)

/-- The call is tried again later. -/
def Errno.again (e : Errno) (block : Bool) : Bool := e = eagain && !block || e = eintr

/-- `redisConnect`. -/
def ByteContext.connect : ByteContext := ⟨none, true, [], .create⟩

/-- `redisvAppendCommand` and `redisAppendCommandArgv` with a command that has been formatted; the
result is whether they return `REDIS_OK`. -/
def redisAppendCommand (c : ByteContext) : Formatted → Option (Bool × ByteContext)
  | .ok argv _ => some (true, { c with obuf := c.obuf ++ commandText argv })
  | .formatErr => some (false, { c with err := some (.other "Invalid format string".toList) })
  | .undefined => none

/-- `redisBufferWrite`; the result is whether it returns `REDIS_OK`, and `done` is that the output
buffer is empty. -/
def redisBufferWrite (c : ByteContext) (k : Wire) : Option (Bool × ByteContext × Wire) :=
  if c.err.isSome then some (false, c, k)
  else if c.obuf = [] then some (true, c, k)
  else
    match k.writes with
    | [] => none
    | .ok n :: writes =>
      some (true, { c with obuf := c.obuf.drop n },
        { k with sent := k.sent ++ c.obuf.take n, writes := writes })
    | .error e :: writes =>
      if e.again c.block then some (true, c, { k with writes := writes })
      else some (false, { c with err := some (.io e) }, { k with writes := writes })

/-- `redisGetReplyFromReader`; the result is whether it returns `REDIS_OK`, and the reply. -/
def redisGetReplyFromReader (c : ByteContext) : Bool × Option RedisReply × ByteContext :=
  let p := c.reader.getReply
  match p.2.err with
  | some e => (false, none, { c with err := some (.reader e), reader := p.2 })
  | none => (true, p.1, { c with reader := p.2 })

/-- The loop of `redisGetReply` that writes, at most `n` times. -/
def writeLoop : ℕ → ByteContext → Wire → Option (Bool × ByteContext × Wire)
  | 0, _, _ => none
  | n + 1, c, k =>
    match redisBufferWrite c k with
    | none => none
    | some (false, c, k) => some (false, c, k)
    | some (true, c, k) => if c.obuf = [] then some (true, c, k) else writeLoop n c k

section Respond

variable (respond : Str → Str)

/-- `redisBufferRead`, with room for 16k. -/
def redisBufferRead (c : ByteContext) (k : Wire) : Option (Bool × ByteContext × Wire) :=
  if c.err.isSome then some (false, c, k)
  else
    match k.reads with
    | [] => none
    | .ok 0 :: reads =>
      some (false, { c with err := some (.eof "Server closed the connection".toList) },
        { k with reads := reads })
    | .ok (n + 1) :: reads =>
      let bytes := ((respond k.sent).drop k.received).take (min (n + 1) (1024 * 16))
      let k := { k with received := k.received + bytes.length, reads := reads }
      if bytes = [] then none
      else
        match c.reader.err with
        | some e => some (false, { c with err := some (.reader e) }, k)
        | none => some (true, { c with reader := c.reader.feed bytes }, k)
    | .error e :: reads =>
      if e.again c.block then some (true, c, { k with reads := reads })
      else some (false, { c with err := some (.io e) }, { k with reads := reads })

/-- The loop of `redisGetReply` that reads, at most `n` times; the result is the reply, if it does
not return `REDIS_ERR`. -/
def readLoop : ℕ → ByteContext → Wire → Option (Option RedisReply × ByteContext × Wire)
  | 0, _, _ => none
  | n + 1, c, k =>
    match redisBufferRead respond c k with
    | none => none
    | some (false, c, k) => some (none, c, k)
    | some (true, c, k) =>
      match redisGetReplyFromReader c with
      | (false, _, c) => some (none, c, k)
      | (true, some reply, c) => some (some reply, c, k)
      | (true, none, c) => readLoop n c k

/-- `redisGetReply`; the result is the reply, if there is one. Each turn of the loops but the last
takes an item of its list. -/
def redisGetReply (c : ByteContext) (k : Wire) :
    Option (Option RedisReply × ByteContext × Wire) :=
  match redisGetReplyFromReader c with
  | (false, _, c) => some (none, c, k)
  | (true, some reply, c) => some (some reply, c, k)
  | (true, none, c) =>
    if c.block then
      match writeLoop (k.writes.length + 1) c k with
      | none => none
      | some (false, c, k) => some (none, c, k)
      | some (true, c, k) => readLoop respond (k.reads.length + 1) c k
    else some (none, c, k)

/-- `redisCommand` and `redisCommandArgv`. -/
def redisCommand (c : ByteContext) (k : Wire) (f : Formatted) :
    Option (Option RedisReply × ByteContext × Wire) :=
  match redisAppendCommand c f with
  | none => none
  | some (false, c) => some (none, c, k)
  | some (true, c) => if c.block then redisGetReply respond c k else some (none, c, k)

/-- The calls of hiredis that a client makes, with the replies that it gets from those that take
one. -/
def runHiredis : List HiredisCall → ByteContext → Wire →
    Option (List (Option RedisReply) × ByteContext × Wire)
  | [], c, k => some ([], c, k)
  | .append f :: ops, c, k =>
    (redisAppendCommand c f).bind fun p => runHiredis ops p.2 k
  | .getReply :: ops, c, k =>
    (redisGetReply respond c k).bind fun p =>
      (runHiredis ops p.2.1 p.2.2).map fun q => (p.1 :: q.1, q.2)
  | .command f :: ops, c, k =>
    (redisCommand respond c k f).bind fun p =>
      (runHiredis ops p.2.1 p.2.2).map fun q => (p.1 :: q.1, q.2)

end Respond

end YcsbC

import Mathlib.Algebra.Group.Nat.Defs
import Mathlib.Algebra.Ring.Int.Defs
import YcsbC.Lib.VmpString

/-!
# The reply reader of hiredis

`redisReader` takes the bytes of a connection as they arrive and builds the replies
(`redis/hiredis/read.c`). What has arrived is kept in a buffer; a stack of tasks says where in a
nested reply the reader is. `redisReaderGetReply` processes items as long as the buffer has all of
the next one, and returns a reply when the stack is empty again.

The functions that create the objects are those of `redis/hiredis/hiredis.c`, lines 61 to 184; they
put an object into the array of the parent task. Allocations succeed.

## Main definitions

* `RedisReply`, `ReadTask`, `RedisReader`: replies, tasks and readers.
* `createArrayObject`: an array that is complete with its line.
* `seekNewline`, `readLongLong`: the end of a line, and the number that it starts with.
* `RedisReader.processItem`, `feed`, `getReply`: the reader.
* `RedisReader.replies`: what a client gets that asks until there is no reply.
-/

namespace YcsbC

/-- A `redisReply`. A `hollow` array has a count in `elements`, as a `size_t`, and no items. -/
inductive RedisReply where
  | status (str : Str)
  | error (str : Str)
  | integer (n : ℤ)
  | nil
  | string (str : Str)
  | array (elements : List RedisReply)
  | hollow (elements : ℤ)

/-- `reply->str`. -/
def RedisReply.str : RedisReply → Option Str
  | status str => some str
  | error str => some str
  | string str => some str
  | _ => none

/-! ### Lines and numbers -/

/-- The first `\r\n`. -/
def findCrlf : Str → Option ℕ
  | [] => none
  | c :: s => if c = '\r' ∧ s.head? = some '\n' then some 0 else (findCrlf s).map (· + 1)

/-- `seekNewline`; the length is cut to an `int`, and the search ends at that position. -/
def seekNewline (s : Str) : Option ℕ :=
  let len := Int.bmod (s.length - 1) (2 ^ 32)
  if len ≤ 0 then none else findCrlf (s.take (len.toNat + 2))

/-- The loop of `readLongLong` up to the `\r`; a `long long` that overflows is `none`. -/
def readDigits (mult : ℤ) (v : ℕ) : Str → Option ℤ
  | [] => some (-1)
  | c :: s =>
    if c = '\r' then some (mult * v)
    else if c.isDigit then
      let v := v * 10 + (c.toNat - '0'.toNat)
      if v < 2 ^ 63 then readDigits mult v s else none
    else some (-1)

/-- `readLongLong`; unexpected input gives -1. -/
def readLongLong : Str → Option ℤ
  | [] => readDigits 1 0 []
  | c :: s =>
    if c = '-' then readDigits (-1) 0 s
    else if c = '+' then readDigits 1 0 s
    else readDigits 1 0 (c :: s)

/-! ### Errors -/

/-- `chrtos`. -/
def chrtos (byte : Char) : Str :=
  match byte with
  | '\\' => ['"', '\\', '\\', '"']
  | '"' => ['"', '\\', '"', '"']
  | '\n' => ['"', '\\', 'n', '"']
  | '\r' => ['"', '\\', 'r', '"']
  | '\t' => ['"', '\\', 't', '"']
  | c =>
    let n := c.toNat
    if n = 7 then ['"', '\\', 'a', '"']
    else if n = 8 then ['"', '\\', 'b', '"']
    else if 32 ≤ n ∧ n < 127 then ['"', c, '"']
    else ['"', '\\', 'x', Nat.digitChar (n / 16), Nat.digitChar (n % 16), '"']

/-- What stops a reader: `REDIS_ERR_PROTOCOL` with its text, or behaviour that C leaves undefined,
after which nothing is said about the reader: a number that overflows, or a count above 0 that is
not above 0 as an `int`, so that the items have no place. -/
inductive ReaderError where
  | protocol (errstr : Str)
  | undefined
  deriving DecidableEq, Repr

/-- The error of `__redisReaderSetErrorProtocolByte`. -/
def protocolByte (byte : Char) : ReaderError :=
  .protocol ("Protocol error, got ".toList ++ chrtos byte ++ " as reply type byte".toList)

/-- The error of an array at depth 8. -/
def tooDeep : ReaderError :=
  .protocol "No support for nested multi bulk replies with depth > 7".toList

/-! ### The reader -/

/-- The type of an item, by its first byte. -/
inductive ReplyType where
  | error
  | status
  | integer
  | string
  | array
  deriving DecidableEq, Repr

/-- The `switch` over the first byte. -/
def ReplyType.ofByte : Char → Option ReplyType
  | '-' => some error
  | '+' => some status
  | ':' => some integer
  | '$' => some string
  | '*' => some array
  | _ => none

/-- A `redisReadTask`. Once its type is known it may turn out to be an array, of `elements` items,
and `obj` holds those that have been created. `idx` is the place in the parent array. -/
structure ReadTask where
  type : Option ReplyType
  elements : ℤ
  idx : ℤ
  obj : List RedisReply

/-- The task of a root object. -/
def ReadTask.root : ReadTask := ⟨none, -1, -1, []⟩

/-- The task of the first item of an array. -/
def ReadTask.child : ReadTask := ⟨none, -1, 0, []⟩

/-- A `redisReader`; `rstack` is the part of the stack that is in use, the current task first, so
that `ridx` is its length less one. -/
structure RedisReader where
  err : Option ReaderError
  buf : Str
  pos : ℕ
  rstack : List ReadTask
  reply : Option RedisReply

/-- `moveToNextTask`, after the object of the current task has been created. An array is put into
its own parent when it is complete, and the root object becomes the reply. -/
def moveToNextTask (obj : RedisReply) (cur : ReadTask) :
    List ReadTask → List ReadTask × Option RedisReply
  | [] => ([], some obj)
  | prv :: rest =>
    let prv := { prv with obj := prv.obj ++ [obj] }
    if cur.idx = prv.elements - 1 then moveToNextTask (.array prv.obj) prv rest
    else (⟨none, -1, cur.idx + 1, []⟩ :: prv :: rest, none)

namespace RedisReader

/-- `redisReaderCreate`. -/
def create : RedisReader := ⟨none, [], 0, [], none⟩

/-- `__redisReaderSetError`. -/
def setError (e : ReaderError) : RedisReader := ⟨some e, [], 0, [], none⟩

/-- The bytes from the cursor on. -/
def unread (r : RedisReader) : Str := r.buf.drop r.pos

/-- The object of the current task has been created. -/
def put (r : RedisReader) (obj : RedisReply) : RedisReader :=
  match r.rstack with
  | [] => r
  | cur :: rest =>
    let p := moveToNextTask obj cur rest
    { r with rstack := p.1, reply := p.2 }

/-- `readLine`: the line, and the reader behind it. -/
def readLine (r : RedisReader) : Option (Str × RedisReader) :=
  (seekNewline r.unread).map fun len => (r.unread.take len, { r with pos := r.pos + len + 2 })

/-- `processLineItem`; the result is whether it returns `REDIS_OK`. -/
def processLineItem (type : ReplyType) (r : RedisReader) : RedisReader × Bool :=
  match r.readLine with
  | none => (r, false)
  | some (line, r') =>
    match type with
    | .integer =>
      match readLongLong r.unread with
      | none => (setError .undefined, false)
      | some n => (r'.put (.integer n), true)
    | .error => (r'.put (.error line), true)
    | _ => (r'.put (.status line), true)

/-- `processBulkItem`. -/
def processBulkItem (r : RedisReader) : RedisReader × Bool :=
  match seekNewline r.unread with
  | none => (r, false)
  | some s =>
    match readLongLong r.unread with
    | none => (setError .undefined, false)
    | some len =>
      if len < 0 then (({ r with pos := r.pos + (s + 2) } : RedisReader).put .nil, true)
      else
        let bytelen := s + 2 + (len.toNat + 2)
        if r.pos + bytelen ≤ r.buf.length then
          (({ r with pos := r.pos + bytelen } : RedisReader).put
            (.string ((r.unread.drop (s + 2)).take len.toNat)), true)
        else (r, false)

/-- `createArrayObject`, for an array that is complete with its line; its count is cut to an
`int`. -/
def createArrayObject (elements : ℤ) : RedisReply :=
  let count := Int.bmod elements (2 ^ 32)
  if count = 0 then .array [] else .hollow count

/-- `processMultiBulkItem`. -/
def processMultiBulkItem (cur : ReadTask) (rest : List ReadTask) (r : RedisReader) :
    RedisReader × Bool :=
  if rest.length = 8 then (setError tooDeep, false)
  else
    match r.readLine with
    | none => (r, false)
    | some (_, r') =>
      match readLongLong r.unread with
      | none => (setError .undefined, false)
      | some elements =>
        if elements = -1 then (r'.put .nil, true)
        else if 0 < elements then
          -- the count of the task is an `int`
          let count := Int.bmod elements (2 ^ 32)
          if 0 < count then
            ({ r' with rstack := .child :: { cur with elements := count, obj := [] } :: rest },
              true)
          else (setError .undefined, false)
        else (r'.put (createArrayObject elements), true)

/-- The item of the current task, whose type is known. -/
def processTyped (type : ReplyType) (cur : ReadTask) (rest : List ReadTask) (r : RedisReader) :
    RedisReader × Bool :=
  match type with
  | .string => r.processBulkItem
  | .array => r.processMultiBulkItem cur rest
  | type => r.processLineItem type

/-- `processItem`; the result is whether it returns `REDIS_OK`. -/
def processItem (r : RedisReader) : RedisReader × Bool :=
  match r.rstack with
  | [] => (r, false)
  | cur :: rest =>
    match cur.type with
    | some type => r.processTyped type cur rest
    | none =>
      match r.unread with
      | [] => (r, false)
      | byte :: _ =>
        match ReplyType.ofByte byte with
        | none => (setError (protocolByte byte), false)
        | some type =>
          let cur := { cur with type := some type }
          ({ r with pos := r.pos + 1, rstack := cur :: rest } : RedisReader).processTyped
            type cur rest

/-- `redisReaderFeed`. -/
def feed (r : RedisReader) (bytes : Str) : RedisReader :=
  if r.err.isSome then r else { r with buf := r.buf ++ bytes }

/-- The loop of `redisReaderGetReply`, at most `n` times. -/
def processItems : ℕ → RedisReader → RedisReader
  | 0, r => r
  | n + 1, r =>
    if r.rstack.isEmpty then r
    else
      match r.processItem with
      | (r, true) => processItems n r
      | (r, false) => r

/-- Discard the part of the buffer that has been read, when it is at least 1k. -/
def discard (r : RedisReader) : RedisReader :=
  if 1024 ≤ r.pos then { r with buf := r.unread, pos := 0 } else r

/-- `redisReaderGetReply`; it returns `REDIS_ERR` when the reader has an error afterwards. An item
has a byte at least, which bounds the loop. -/
def getReply (r : RedisReader) : Option RedisReply × RedisReader :=
  if r.err.isSome ∨ r.buf = [] then (none, r)
  else
    let r := if r.rstack.isEmpty then { r with rstack := [.root] } else r
    let r := processItems (r.unread.length + 1) r
    if r.err.isSome then (none, r)
    else
      let r := r.discard
      if r.rstack.isEmpty then (r.reply, { r with reply := none }) else (none, r)

/-- The replies of a client that asks at most `n` times, until there is none. -/
def repliesFor : ℕ → RedisReader → List RedisReply × RedisReader
  | 0, r => ([], r)
  | n + 1, r =>
    match r.getReply with
    | (none, r) => ([], r)
    | (some reply, r) =>
      let p := repliesFor n r
      (reply :: p.1, p.2)

/-- The replies of a client that asks until there is none; each has a byte at least. -/
def replies (r : RedisReader) : List RedisReply × RedisReader :=
  repliesFor (r.unread.length + 1) r

/-- The bytes arrive in pieces, and after each piece the client asks until there is no reply. -/
def repliesOf : List Str → RedisReader → List RedisReply × RedisReader
  | [], r => ([], r)
  | piece :: pieces, r =>
    let p := (r.feed piece).replies
    let q := repliesOf pieces p.2
    (p.1 ++ q.1, q.2)

end RedisReader

end YcsbC

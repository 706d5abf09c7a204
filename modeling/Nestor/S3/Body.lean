import Nestor.Lib.Percent
import Nestor.Lib.Text
import Nestor.S3.Http

/-!
# Request bodies on the forward path

`body.rs`: the decoder of `aws-chunked` framing, the capture of the plain bytes, and the body that
is sent to the origin. A stream is a state that is polled in turns: a turn of the decoder is one
round of the loop of its `poll_next`. The texts of its errors are left out.
-/

namespace Nestor.S3

open Lib

inductive BodyError where
  | notUtf8
  | notHex
  | headerTooLong
  | missingTerminator
  | endedEarly
  /-- An error of the body that comes from the client. -/
  | inner
deriving DecidableEq

/-- An item of a stream of chunks. -/
abbrev Chunk := Except BodyError Bytes

/-! ## The decoder -/

def maxHeaderLine : Nat := 1024

inductive Phase where
  | header
  | data (remaining : Nat)
  | dataCrlf
  | trailers
  | done
deriving DecidableEq

structure AwsChunkedDecoder where
  buf : Bytes
  state : Phase
  eof : Bool
deriving DecidableEq

def crlf : Bytes := [13, 10]

/-- `usize::from_str_radix` for hexadecimal numbers. -/
def parseHex (s : Bytes) : Option Nat :=
  let s := (s.dropPrefix? (ascii "+")).getD s
  if s = [] then none
  else ((s.mapM hexValue).map (List.foldl (fun n d => 16 * n + d) 0)).filter (· < 2 ^ 64)

def parseHeader (line : Bytes) : Except BodyError Nat :=
  let size := line.takeWhile (· ≠ 59)
  if utf8Lossy size ≠ size then .error .notUtf8
  else match parseHex (trimText size) with
    | some n => .ok n
    | none => .error .notHex

/-- Where the first CR LF is. -/
def findCrlf : Bytes → Option Nat
  | [] => none
  | b :: rest => if crlf <+: b :: rest then some 0 else (findCrlf rest).map (· + 1)

/-- A round of the loop: it goes on, an item is yielded, the stream ends, or more input is
needed. -/
inductive Turn where
  | again (d : AwsChunkedDecoder)
  | item (chunk : Chunk) (d : AwsChunkedDecoder)
  | done
  | input (d : AwsChunkedDecoder)

namespace AwsChunkedDecoder

def new : AwsChunkedDecoder := ⟨[], .header, false⟩

/-- The end of a round that has done nothing. -/
def needInput (d : AwsChunkedDecoder) : Turn := if d.eof then .item (.error .endedEarly) d else .input d

def turn (d : AwsChunkedDecoder) : Turn :=
  match d.state with
  | .done => .done
  | .header =>
      match findCrlf d.buf with
      | some pos =>
          let rest := { d with buf := d.buf.drop (pos + 2) }
          match parseHeader (d.buf.take pos) with
          | .error e => .item (.error e) rest
          | .ok 0 => .again { rest with state := .trailers }
          | .ok size => .again { rest with state := .data size }
      | none => if maxHeaderLine < d.buf.length then .item (.error .headerTooLong) d else d.needInput
  | .data remaining =>
      if d.buf = [] then d.needInput
      else
        let take := min remaining d.buf.length
        let state := if take = remaining then .dataCrlf else .data (remaining - take)
        .item (.ok (d.buf.take take)) { d with buf := d.buf.drop take, state := state }
  | .dataCrlf =>
      if 2 ≤ d.buf.length then
        if d.buf.take 2 ≠ crlf then .item (.error .missingTerminator) d
        else .again { d with buf := d.buf.drop 2, state := .header }
      else d.needInput
  | .trailers => if d.eof then .done else needInput { d with buf := [] }

end AwsChunkedDecoder

/-! ## The body of the request -/

/-- The body from the client, what is left of it, and the decoder if it is framed. -/
structure RequestBody where
  items : List Chunk
  decoder : Option AwsChunkedDecoder
  ended : Bool
deriving DecidableEq

namespace RequestBody

/-- `request_body`, but for the capture. -/
def new (streaming : Bool) (items : List Chunk) : RequestBody :=
  ⟨items, if streaming then some .new else none, false⟩

/-- The decoder takes its next input. -/
def input (b : RequestBody) (d : AwsChunkedDecoder) : Option Chunk × RequestBody :=
  match b.items with
  | [] => (none, { b with decoder := some { d with eof := true } })
  | .error e :: items => (some (.error e), { b with items := items, decoder := some d })
  | .ok chunk :: items => (none, { b with items := items, decoder := some { d with buf := d.buf ++ chunk } })

/-- A turn of the stream, and the item it yields. A stream that has ended has no turns. -/
def turn (b : RequestBody) : Option (Option Chunk × RequestBody) :=
  if b.ended then none
  else match b.decoder with
    | none =>
        match b.items with
        | [] => some (none, { b with ended := true })
        | item :: items => some (some item, { b with items := items })
    | some d =>
        match d.turn with
        | .again d => some (none, { b with decoder := some d })
        | .item chunk d => some (some chunk, { b with decoder := some d })
        | .done => some (none, { b with ended := true })
        | .input d => some (b.input d)

end RequestBody

/-! ## The capture -/

structure Captured where
  chunks : List Bytes
  len : Nat
  overflow : Bool
deriving DecidableEq

namespace Captured

def default : Captured := ⟨[], 0, false⟩

def push (c : Captured) (limit : Nat) (chunk : Bytes) : Captured :=
  if c.overflow then c
  else if limit < c.len + chunk.length then { c with overflow := true, chunks := [] }
  else { c with len := c.len + chunk.length, chunks := c.chunks ++ [chunk] }

def take (c : Captured) : Option Bytes := if c.overflow then none else some c.chunks.flatten

end Captured

/-- A request that is being sent: its body, all that the origin has pulled of it, and the
capture. -/
structure Upload where
  body : RequestBody
  pulled : List Chunk
  captured : Captured

namespace Upload

def new (streaming : Bool) (items : List Chunk) : Upload := ⟨.new streaming items, [], .default⟩

/-- An item is captured on its way to the origin. -/
def pull (u : Upload) (limit : Nat) (body : RequestBody) (item : Chunk) : Upload :=
  { body := body
    pulled := u.pulled ++ [item]
    captured := match item with
      | .ok chunk => u.captured.push limit chunk
      | .error _ => u.captured }

def step (limit : Nat) (u : Upload) : Option Upload :=
  match u.body.turn with
  | none => none
  | some (none, body) => some { u with body := body }
  | some (some item, body) => some (u.pull limit body item)

end Upload

end Nestor.S3

import ContentTree.Message

/-!
The frames that carry messages: a header of size and type, both 16 bits in network byte order, and
a body whose layout the type fixes. The size counts the header.
-/

namespace ContentTree

inductive WireError
  | truncated (needed available : Nat)
  | sizeMismatch (declared actual : Nat)
  | badSize (type : UInt16) (size : Nat)
  | unknownType (type : UInt16)
  | tooLarge (size : Nat)
  deriving DecidableEq, Repr

def WireError.message : WireError → String
  | .truncated needed available =>
    s!"Frame truncated: need {needed} bytes, have {available}"
  | .sizeMismatch declared actual =>
    s!"Size field {declared} does not match frame length {actual}"
  | .badSize type size => s!"Unexpected size {size} for message type {type}"
  | .unknownType type => s!"Unknown message type {type}"
  | .tooLarge size => s!"Message too large: {size} bytes"

abbrev headerSize : Nat := 4

namespace MessageType

def returnValue : UInt16 := 0

def query : UInt16 := 8

def result : UInt16 := 9

def insert : UInt16 := 10

def index : UInt16 := 11

def delete : UInt16 := 12

def unindex : UInt16 := 13

def averagePriority : UInt16 := 15

def indexSuper : UInt16 := 17

def unindexSuper : UInt16 := 18

end MessageType

namespace Wire

/-- Bytes of a query frame before its hashes. -/
abbrev queryHeaderSize : Nat := 12

abbrev blockFrameSize : Nat := 1032

abbrev indexFrameSize : Nat := 40

abbrev superFrameSize : Nat := 28

abbrev returnFrameSize : Nat := 8

abbrev resultFrameSize : Nat := 1028

def readUInt16 (bs : Bytes) : UInt16 := UInt16.ofNat (ofBigEndian (bs.take 2))

def readUInt32 (bs : Bytes) : UInt32 := UInt32.ofNat (ofBigEndian (bs.take 4))

def readUInt64 (bs : Bytes) : UInt64 := UInt64.ofNat (ofBigEndian (bs.take 8))

def readInt32 (bs : Bytes) : Int32 := (readUInt32 bs).toInt32

def header (size : Nat) (type : UInt16) : Bytes := bigEndian 2 size ++ bigEndian 2 type.toNat

def readHashes : Nat → Bytes → List Digest
  | 0, _ => []
  | n + 1, bs => fit 20 bs :: readHashes n (bs.drop 20)

def indexBytes (e : IndexEntry) : Bytes :=
  e.hash.toList ++ bigEndian 4 e.priority.toNat ++ bigEndian 2 e.lookup.toNat ++
    bigEndian 2 e.fileIndex.toNat ++ bigEndian 8 e.offset.toNat

def readIndex (bs : Bytes) : IndexEntry :=
  ⟨fit 20 bs, readUInt32 (bs.drop 20), readUInt16 (bs.drop 24), readUInt16 (bs.drop 26),
    readUInt64 (bs.drop 28)⟩

/-- Size and type of a frame, from its first four bytes. -/
def parseHeader (bs : Bytes) : Except WireError (Nat × UInt16) :=
  if bs.length < headerSize then .error (.truncated headerSize bs.length)
  else
    let size := (readUInt16 bs).toNat
    let type := readUInt16 (bs.drop 2)
    if size < headerSize then .error (.badSize type size) else .ok (size, type)

/-- Type and body of a complete frame. -/
def openFrame (frame : Bytes) : Except WireError (UInt16 × Bytes) := do
  let (size, type) ← parseHeader frame
  if size = frame.length then return (type, frame.drop headerSize)
  else throw (.sizeMismatch size frame.length)

end Wire

def Query.wireSize (q : Query) : Nat := Wire.queryHeaderSize + 20 * q.hashes.length

namespace ClientMessage

def type : ClientMessage → UInt16
  | query _ => MessageType.query
  | insert .. => MessageType.insert
  | delete .. => MessageType.delete
  | index _ => MessageType.index
  | unindex _ => MessageType.unindex
  | indexSuper .. => MessageType.indexSuper
  | unindexSuper .. => MessageType.unindexSuper
  | averagePriority => MessageType.averagePriority

def wireSize : ClientMessage → Nat
  | query q => q.wireSize
  | insert .. | delete .. => Wire.blockFrameSize
  | index _ | unindex _ => Wire.indexFrameSize
  | indexSuper .. | unindexSuper .. => Wire.superFrameSize
  | averagePriority => headerSize

def body : ClientMessage → Bytes
  | query q =>
    bigEndian 4 q.priority.toNat ++ bigEndian 4 q.ttl.toUInt32.toNat ++
      q.hashes.flatMap Vector.toList
  | insert p b | delete p b => bigEndian 4 p.toNat ++ b.toList
  | index e | unindex e => Wire.indexBytes e
  | indexSuper p h | unindexSuper p h => bigEndian 4 p.toNat ++ h.toList
  | averagePriority => []

def encode (m : ClientMessage) : Except WireError Bytes :=
  if 65535 < m.wireSize then .error (.tooLarge m.wireSize)
  else .ok (Wire.header m.wireSize m.type ++ m.body)

def decode (frame : Bytes) : Except WireError ClientMessage := do
  let (type, body) ← Wire.openFrame frame
  let sized (size : Nat) (m : ClientMessage) : Except WireError ClientMessage :=
    if frame.length = size then .ok m else .error (.badSize type frame.length)
  if type = MessageType.query then
    let n := (frame.length - Wire.queryHeaderSize) / 20
    if frame.length = Wire.queryHeaderSize + 20 * n ∧ 0 < n then
      return .query ⟨Wire.readUInt32 body, Wire.readInt32 (body.drop 4),
        Wire.readHashes n (body.drop 8)⟩
    else throw (.badSize type frame.length)
  else if type = MessageType.insert then
    sized Wire.blockFrameSize (.insert (Wire.readUInt32 body) (fit 1024 (body.drop 4)))
  else if type = MessageType.delete then
    sized Wire.blockFrameSize (.delete (Wire.readUInt32 body) (fit 1024 (body.drop 4)))
  else if type = MessageType.index then
    sized Wire.indexFrameSize (.index (Wire.readIndex body))
  else if type = MessageType.unindex then
    sized Wire.indexFrameSize (.unindex (Wire.readIndex body))
  else if type = MessageType.indexSuper then
    sized Wire.superFrameSize (.indexSuper (Wire.readUInt32 body) (fit 20 (body.drop 4)))
  else if type = MessageType.unindexSuper then
    sized Wire.superFrameSize (.unindexSuper (Wire.readUInt32 body) (fit 20 (body.drop 4)))
  else if type = MessageType.averagePriority then
    sized headerSize .averagePriority
  else throw (.unknownType type)

end ClientMessage

namespace DaemonMessage

def encode : DaemonMessage → Bytes
  | returnValue v =>
    Wire.header Wire.returnFrameSize MessageType.returnValue ++ bigEndian 4 v.toUInt32.toNat
  | result b => Wire.header Wire.resultFrameSize MessageType.result ++ b.toList

def decode (frame : Bytes) : Except WireError DaemonMessage := do
  let (type, body) ← Wire.openFrame frame
  if type = MessageType.returnValue then
    if frame.length = Wire.returnFrameSize then return .returnValue (Wire.readInt32 body)
    else throw (.badSize type frame.length)
  else if type = MessageType.result then
    if frame.length = Wire.resultFrameSize then return .result (fit 1024 body)
    else throw (.badSize type frame.length)
  else throw (.unknownType type)

end DaemonMessage

end ContentTree

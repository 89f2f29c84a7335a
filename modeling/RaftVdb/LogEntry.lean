import Mathlib.Data.List.Basic

/-!
# Persisted data

Log entries, the commands inside them, the term/vote record of `meta.bin` and the
role of a node. A payload is a byte string; entries and commands get into and out of
bytes through protobuf, which is generated code and enters the model as a codec.
-/

namespace RaftVdb

abbrev Bytes := List UInt8

inductive RaftState where
  | follower | candidate | leader
  deriving DecidableEq, Repr

/-- A C++ enumeration: `other` is a code without an enumerator, as a cast may leave it. -/
inductive EntryType where
  | normal | config | noop
  | other (code : UInt8)
  deriving DecidableEq, Repr

inductive CmdType where
  | upsert | delete
  | other (code : UInt8)
  deriving DecidableEq, Repr

/-- `IsKnownEnumValue` for both enumerations. -/
def EntryType.isKnown : EntryType → Bool
  | .other _ => false
  | _ => true

def CmdType.isKnown : CmdType → Bool
  | .other _ => false
  | _ => true

structure LogEntry where
  index : Nat := 0
  term : Nat := 0
  type : EntryType := .normal
  cmdType : CmdType := .upsert
  payload : Bytes := []
  deriving DecidableEq, Repr

/-- The protobuf codec of a log entry. Serialization fails with an empty string. -/
structure EntryCodec where
  serialize : LogEntry → Bytes
  parse : Bytes → Option LogEntry

namespace EntryCodec

/-- What is relied on: parsing inverts a serialization that did not fail. -/
def RoundTrips (codec : EntryCodec) (e : LogEntry) : Prop :=
  codec.serialize e ≠ [] → codec.parse (codec.serialize e) = some e

/-- `LogEntry::Deserialize`: parse, then refuse codes without an enumerator. -/
def deserialize (codec : EntryCodec) (data : Bytes) : Except String LogEntry :=
  match codec.parse data with
  | none => .error "protobuf 反序列化失败: LogEntry"
  | some e =>
    if e.type.isKnown = false then .error "LogEntry.type 非法"
    else if e.cmdType.isKnown = false then .error "LogEntry.cmd_type 非法"
    else .ok e

end EntryCodec

structure UpsertCmd where
  id : Nat
  vector : List Nat
  requestId : String
  deriving DecidableEq, Repr

structure DeleteCmd where
  id : Nat
  requestId : String
  deriving DecidableEq, Repr

/-- The protobuf codecs of the two commands. The components of a vector are kept as the
bit patterns that travel on the wire. -/
structure CommandCodec where
  serializeUpsert : UpsertCmd → Bytes
  deserializeUpsert : Bytes → Except String UpsertCmd
  serializeDelete : DeleteCmd → Bytes
  deserializeDelete : Bytes → Except String DeleteCmd

/-- `ExtractRequestId`: empty for entries that carry no command. -/
def extractRequestId (codec : CommandCodec) (e : LogEntry) : Except String String :=
  match e.type, e.cmdType with
  | .normal, .upsert => (codec.deserializeUpsert e.payload).map UpsertCmd.requestId
  | .normal, .delete => (codec.deserializeDelete e.payload).map DeleteCmd.requestId
  | _, _ => .ok ""

/-- The contents of `meta.bin`. A missing file reads as the default record. -/
structure RaftMeta where
  currentTerm : Nat := 0
  votedFor : String := ""
  deriving DecidableEq, Repr

end RaftVdb

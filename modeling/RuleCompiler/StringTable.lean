/-! # The string table

Strings are numbered: equal strings get equal names, and a name gives its string back. The table
is split into shards; a name holds the shard and the position there in one word. -/

namespace RuleCompiler

/-- A name: four bits for the shard, twenty-eight for the position in it. -/
structure Name where
  raw : BitVec 32
deriving DecidableEq, Inhabited

namespace Name

/-- The last position in a shard. -/
def maxPosition : Nat := 0x0FFFFFFF

def shardCount : Nat := 16

def mk' (shard position : Nat) : Name :=
  ⟨BitVec.ofNat 32 shard <<< 28 ||| BitVec.ofNat 32 position⟩

def shard (n : Name) : Nat := (n.raw >>> 28).toNat

def position (n : Name) : Nat := (n.raw &&& BitVec.ofNat 32 maxPosition).toNat

/-- The name of the empty string. -/
def empty : Name := ⟨0⟩

end Name

inductive InternError where
  /-- A shard ran out of positions. -/
  | shardOverflow (shard count : Nat)
deriving DecidableEq

def InternError.render : InternError → String
  | shardOverflow shard count =>
    s!"intern table shard {shard} is full ({count} entries, limit {Name.maxPosition})"

/-- One part of the table: the texts by position, and the position of each text. -/
structure Shard where
  ids : List (String × Nat) := []
  texts : List String := []

namespace Shard

def add (s : Shard) (text : String) : Shard :=
  ⟨(text, s.texts.length) :: s.ids, s.texts ++ [text]⟩

/-- The position of `text`, and the shard, which bears `number`, with `text` in it. -/
def insertIfAbsent (s : Shard) (number : Nat) (text : String) : Except InternError (Nat × Shard) :=
  match s.ids.lookup text with
  | some position => .ok (position, s)
  | none =>
    let count := s.texts.length
    if count ≤ Name.maxPosition then .ok (count, s.add text)
    else .error (.shardOverflow number count)

end Shard

structure StringTable where
  hash : String → Nat
  shards : List Shard
  /-- The number of texts in all shards. -/
  entries : Nat

namespace StringTable

/-- Where a text belongs. The empty text belongs to shard 0, so that its name is `Name.empty`. -/
def shardOf (t : StringTable) (text : String) : Nat :=
  if text.isEmpty then 0 else t.hash text % Name.shardCount

/-- The table that holds the empty string only. -/
def new (hash : String → Nat) : StringTable :=
  ⟨hash, Shard.add {} "" :: List.replicate (Name.shardCount - 1) {}, 1⟩

/-- Texts are spread by their length. -/
def byLength : StringTable := new String.length

def shardAt (t : StringTable) (number : Nat) : Shard := t.shards[number]?.getD {}

/-- The name of `text`, and the table with `text` in it. -/
def intern (t : StringTable) (text : String) : Except InternError (Name × StringTable) :=
  let number := t.shardOf text
  let shard := t.shardAt number
  match shard.ids.lookup text with
  | some position => .ok (.mk' number position, t)
  | none => do
    let (position, after) ← shard.insertIfAbsent number text
    let entries := if shard.texts.length < after.texts.length then t.entries + 1 else t.entries
    return (.mk' number position, { t with shards := t.shards.set number after, entries })

def lookup? (t : StringTable) (n : Name) : Option String := (t.shardAt n.shard).texts[n.position]?

/-- The number of texts, the empty one included. -/
def size (t : StringTable) : Nat := t.entries

/-- Only the empty text is in the table. -/
def isEmpty (t : StringTable) : Bool := t.size == 1

end StringTable

end RuleCompiler

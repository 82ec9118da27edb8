/-!
# Name tables

A name table maps names to the index where their pattern starts. Its entries stand in one array,
bucket after bucket: bucket `b` holds the entries from `starts[b]` up to the start of the next
bucket, and a name belongs to the bucket that its hash selects. A bucket keeps its entries in the
order of their registration, and the first registration of a name wins.
-/

namespace LexicalPatterns

def hashName (name : String) : UInt64 :=
  name.toUTF8.toList.foldl (fun h b => h * 31 + b.toUInt64) 0

/-- A name and the index where its pattern starts. -/
structure Entry where
  name : String
  start : Nat
  deriving DecidableEq, Repr

structure NameTable where
  entries : Array Entry
  /-- For every bucket the position of its first entry. -/
  starts : Array Nat
  deriving Repr

namespace NameTable

def withBuckets (buckets : Nat) : NameTable := ⟨#[], Array.replicate buckets 0⟩

def empty : NameTable := withBuckets 8

def size (t : NameTable) : Nat := t.entries.size

def isEmpty (t : NameTable) : Bool := t.entries.isEmpty

def bucketCount (t : NameTable) : Nat := t.starts.size

def bucketAmong (buckets : Nat) (name : String) : Nat := (hashName name).toNat % buckets

/-- The position of the first entry of a bucket; the number of entries for the bucket after the
last. -/
def bucketStart (t : NameTable) (bucket : Nat) : Nat := t.starts[bucket]?.getD t.size

def bucket (t : NameTable) (i : Nat) : Array Entry :=
  t.entries.extract (t.bucketStart i) (t.bucketStart (i + 1))

def find? (t : NameTable) (name : String) : Option Entry :=
  (t.bucket (bucketAmong t.bucketCount name)).find? (·.name == name)

def lookup (t : NameTable) (name : String) : Option Nat := (t.find? name).map (·.start)

/-- The first entries of the buckets when the names fall into the buckets given in `chosen`. -/
def bucketStarts (buckets : Nat) (chosen : List Nat) : Array Nat :=
  let counts := chosen.foldl (fun counts b => counts.modify b (· + 1)) (Array.replicate buckets 0)
  (counts.foldl (fun (starts, total) count => (starts.push total, total + count)) (#[], 0)).1

/-- Slots that are filled bucket by bucket, and for every bucket the next slot to fill. -/
structure Filling where
  slots : Array (Option Entry)
  cursor : Array Nat

/-- Puts an entry into the next slot of its bucket. -/
def Filling.put (f : Filling) (placed : Nat × Entry) : Filling where
  slots := f.slots.setIfInBounds (f.cursor.getD placed.1 0) (some placed.2)
  cursor := f.cursor.modify placed.1 (· + 1)

/-- The same entries in another number of buckets, each bucket in the former order. -/
def rebuild (t : NameTable) (buckets : Nat) : NameTable :=
  let placed := t.entries.toList.map fun e => (bucketAmong buckets e.name, e)
  let starts := bucketStarts buckets (placed.map (·.1))
  let filled := placed.foldl Filling.put ⟨Array.replicate t.size none, starts⟩
  ⟨filled.slots.filterMap id, starts⟩

/-- Puts an entry behind the others of its bucket. -/
def insert (t : NameTable) (e : Entry) : NameTable :=
  let bucket := bucketAmong t.bucketCount e.name
  ⟨t.entries.insertIdxIfInBounds (t.bucketStart (bucket + 1)) e,
    t.starts.mapIdx fun i start => if bucket < i then start + 1 else start⟩

/-- Doubles the buckets when there are more than two entries for each. -/
def grow (t : NameTable) : NameTable :=
  if t.size > 2 * t.bucketCount then t.rebuild (t.bucketCount * 2) else t

/-- Registers a name at an index, unless it is registered: then its entry is the refusal. -/
def register (t : NameTable) (name : String) (start : Nat) : Except Entry NameTable :=
  match t.find? name with
  | some e => .error e
  | none => .ok (t.insert ⟨name, start⟩).grow

def registeredMessage (e : Entry) : String :=
  "`" ++ e.name ++ "` is already registered at " ++ toString e.start

/-- The entries ordered by start index, those of one index in the order of the table. -/
def sortedEntries (t : NameTable) : List Entry :=
  t.entries.toList.mergeSort fun a b => a.start ≤ b.start

def names (t : NameTable) : List String := t.sortedEntries.map (·.name)

def nameAt (t : NameTable) (start : Nat) : Option String :=
  (t.entries.find? (·.start == start)).map (·.name)

end NameTable
end LexicalPatterns

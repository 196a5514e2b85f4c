import LsmTree.TableFormat

/-!
# Reading table files

Four pieces of code decode what `SSTable::write` has laid out: the constructor reads the
footer, the index, the filter and the last block; `readAll` reads the data section with
the same checked entry reader; an iterator reads it with a reader of its own that checks
nothing; and `get` fetches one block and parses it in memory. They are kept apart here,
each as the source has it.

Lookups by key go through the sparse index: a binary search finds the last block whose
first key is not above the key.
-/

namespace LsmTree.Table
open LittleEndian LayeredMap ByteStream

/-- Why a table cannot be opened or read. A read into a variable without an initial value that
fails leaves the value undetermined. -/
inductive ReadError where
  | fileTooSmall
  | footerOffsets
  | indexCount
  | stringTooLong (length maxLength : ℕ)
  | bloomBlocks
  | incompleteRead
  | undetermined
  deriving DecidableEq, Repr

/-! ### Entries from a stream -/

def readUint32 (s : IStream) : ℕ × IStream := (leNat (s.read 4).1, (s.read 4).2)

def readUint64 (s : IStream) : ℕ × IStream := (leNat (s.read 8).1, (s.read 8).2)

def readString (maxLen : ℕ) (s : IStream) : Except ReadError (Bytes × IStream) :=
  let len := readUint32 s
  if maxLen < len.1 then .error (.stringTooLong len.1 maxLen) else .ok (len.2.read len.1)

/-- An entry with the tombstone byte `t`. -/
def mkEntry (t key value : Bytes) : Entry := (.ofBytes key, if leNat t = 0 then some value else none)

def readEntry (maxLen : ℕ) (s : IStream) : Except ReadError (Entry × IStream) :=
  let t := s.read 1
  match readString maxLen t.2 with
  | .error err => .error err
  | .ok key =>
    match readString maxLen key.2 with
    | .error err => .error err
    | .ok value => .ok (mkEntry t.1 key.1 value.1, value.2)

/-! ### Opening a table -/

def readIndex (maxLen : ℕ) : ℕ → IStream → Except ReadError (List (Key × ℕ) × IStream)
  | 0, s => .ok ([], s)
  | n + 1, s =>
    match readString maxLen s with
    | .error err => .error err
    | .ok key =>
      let offset := readUint64 key.2
      match readIndex maxLen n offset.2 with
      | .error err => .error err
      | .ok rest => .ok ((.ofBytes key.1, offset.1) :: rest.1, rest.2)

def deserializeBloom (s : IStream) : Except ReadError (BloomFilter × IStream) :=
  if (s.available 16).length < 16 then .error .undetermined
  else
    let numHashes := readUint64 s
    let numBlocks := readUint64 numHashes.2
    let here := numBlocks.2.pos
    let available := if here + 16 ≤ s.data.length then s.data.length - here - 16 else 0
    if available / 64 < numBlocks.1 then .error .bloomBlocks
    else
      let data := numBlocks.2.read (numBlocks.1 * 64)
      .ok (BloomFilter.deserialize numBlocks.1 numHashes.1 data.1, data.2)

/-- The loop that looks for the largest key: the last entry before `limit`. Every round reads at
least a byte or makes the stream fail, so the size of the file bounds the rounds. -/
def lastEntry (maxLen limit : ℕ) : ℕ → IStream → Entry → Except ReadError Entry
  | 0, _, e => .ok e
  | fuel + 1, s, e =>
    if s.Below limit then
      match readEntry maxLen s with
      | .error err => .error err
      | .ok next => lastEntry maxLen limit fuel next.2 next.1
    else .ok e

/-- `SSTable`, with the file behind its path and descriptor. -/
structure OpenTable where
  file : Bytes
  index : List (Key × ℕ)
  bloom : BloomFilter
  smallestKey : Key
  largestKey : Key
  fileSize : ℕ
  indexOffset : ℕ

/-- The bounds of the keys, from an index that has been read. -/
def keyBounds (s : IStream) (fileSize indexOffset : ℕ) (idx : List (Key × ℕ)) :
    Except ReadError (Key × Key) :=
  match idx with
  | [] => .ok (default, default)
  | first :: rest =>
    match lastEntry fileSize indexOffset (fileSize + 1) (s.seekg (rest.getLastD first).2) (default, none) with
    | .error err => .error err
    | .ok e => .ok (first.1, e.1)

/-- The constructor of `SSTable`, on the bytes of the file. -/
def openTable (file : Bytes) : Except ReadError OpenTable :=
  let fileSize := file.length
  if fileSize < 16 then .error .fileTooSmall
  else
    let indexOffset := readUint64 ((ofFile file).seekEnd 16)
    let bloomOffset := readUint64 indexOffset.2
    if fileSize < indexOffset.1 ∨ fileSize < bloomOffset.1 ∨ bloomOffset.1 < indexOffset.1 then
      .error .footerOffsets
    else
      let count := readUint32 (bloomOffset.2.seekg indexOffset.1)
      if (bloomOffset.1 - indexOffset.1 - 4) / 12 < count.1 then .error .indexCount
      else
        match readIndex fileSize count.1 count.2 with
        | .error err => .error err
        | .ok idx =>
          match deserializeBloom (idx.2.seekg bloomOffset.1) with
          | .error err => .error err
          | .ok bloom =>
            match keyBounds bloom.2 fileSize indexOffset.1 idx.1 with
            | .error err => .error err
            | .ok keys => .ok ⟨file, idx.1, bloom.1, keys.1, keys.2, fileSize, indexOffset.1⟩

/-! ### Reading everything -/

def readEntries (maxLen limit : ℕ) : ℕ → IStream → Except ReadError (List Entry)
  | 0, _ => .ok []
  | fuel + 1, s =>
    if s.Below limit ∧ s.More then
      match readEntry maxLen s with
      | .error err => .error err
      | .ok next =>
        match readEntries maxLen limit fuel next.2 with
        | .error err => .error err
        | .ok es => .ok (next.1 :: es)
    else .ok []

def OpenTable.readAll (t : OpenTable) : Except ReadError (List Entry) :=
  let limit := readUint64 ((ofFile t.file).seekEnd 16)
  readEntries t.fileSize limit.1 (t.file.length + 1) (limit.2.seekg 0)

/-! ### Iterators -/

/-- `SSTableIterator`; it has no stream if its file could not be opened. -/
structure TableIterator where
  stream : Option IStream
  dataEnd : ℕ
  current : Option Entry
  deriving DecidableEq

namespace TableIterator

def decode (s : IStream) : Entry × IStream :=
  let t := s.read 1
  let keyLen := readUint32 t.2
  let key := keyLen.2.read keyLen.1
  let valueLen := readUint32 key.2
  let value := valueLen.2.read valueLen.1
  (mkEntry t.1 key.1 value.1, value.2)

def advance (it : TableIterator) : TableIterator :=
  match it.stream with
  | none => { it with current := none }
  | some s =>
    if s.Below it.dataEnd ∧ s.More then
      { it with stream := some (decode s).2, current := some (decode s).1 }
    else { it with current := none }

def start (stream : Option IStream) (dataEnd offset : ℕ) : TableIterator :=
  advance ⟨if 0 < offset then stream.map (·.seekg offset) else stream, dataEnd, none⟩

/-- The iterator hands out these entries, one after the other, and then has no next one. -/
def Yields : TableIterator → List Entry → Prop
  | it, [] => it.current = none
  | it, e :: es => it.current = some e ∧ it.advance.Yields es

/-- The loop of `createIterator(start_key)`; like every loop over the entries of a file it is
bounded by its size. -/
def skipBelow (key : Key) : ℕ → TableIterator → TableIterator
  | 0, it => it
  | fuel + 1, it =>
    match it.current with
    | none => it
    | some e => if e.1 < key then skipBelow key fuel it.advance else it

end TableIterator

/-- The binary search of `get` and `findBlock`. -/
def searchBlocks (idx : List (Key × ℕ)) (key : Key) : ℕ → ℕ → ℕ → ℕ
  | 0, lo, _ => lo
  | fuel + 1, lo, hi =>
    if lo < hi then
      let mid := lo + (hi - lo + 1) / 2
      match idx[mid]? with
      | none => lo
      | some p => if p.1 ≤ key then searchBlocks idx key fuel mid hi else searchBlocks idx key fuel lo (mid - 1)
    else lo

/-- The number of the block a key belongs to. -/
def blockOf (idx : List (Key × ℕ)) (key : Key) : ℕ := searchBlocks idx key idx.length 0 (idx.length - 1)

namespace OpenTable

def findBlock (t : OpenTable) (key : Key) : ℕ := (t.index[blockOf t.index key]?.map Prod.snd).getD 0

/-- `createIterator()` on a stream for the file of the table. -/
def iterateOn (t : OpenTable) (stream : Option IStream) : TableIterator := .start stream t.indexOffset 0

/-- `createIterator(start_key)` on a stream for the file of the table. -/
def iterateFromOn (t : OpenTable) (stream : Option IStream) (key : Key) : TableIterator :=
  (TableIterator.start stream t.indexOffset (t.findBlock key)).skipBelow key (t.file.length + 1)

def createIterator (t : OpenTable) : TableIterator := t.iterateOn (some (ofFile t.file))

def createIteratorFrom (t : OpenTable) (key : Key) : TableIterator :=
  t.iterateFromOn (some (ofFile t.file)) key

end OpenTable

/-! ### Point lookups -/

/-- The most bytes that one `pread` moves on Linux. -/
def linuxTransferMax : ℕ := 0x7ffff000

/-- `pread`: what the file has of the bytes asked for, but no more than one call moves. -/
def pread (transferMax : ℕ) (file : Bytes) (start count : ℕ) : Bytes := (file.drop start).take (min count transferMax)

/-- `parseBlockEntries`, on what is left of the buffer. -/
def parseBlockEntries : ℕ → Bytes → List Entry
  | 0, _ => []
  | fuel + 1, data =>
    if data.length < 9 then []
    else
      let keyLen := leNat ((data.drop 1).take 4)
      let rest := data.drop 5
      if rest.length < keyLen + 4 then []
      else
        let valueLen := leNat ((rest.drop keyLen).take 4)
        let rest' := rest.drop (keyLen + 4)
        if rest'.length < valueLen then []
        else mkEntry (data.take 1) (rest.take keyLen) (rest'.take valueLen) ::
          parseBlockEntries fuel (rest'.drop valueLen)

/-- The search through a block, which ends at the first larger key. -/
def scanBlock (key : Key) : List Entry → Option (Option Bytes)
  | [] => none
  | e :: es => if e.1 = key then some e.2 else if key < e.1 then none else scanBlock key es

/-- What the block cache holds for the path of a table, by block offset. -/
abbrev BlockCache := ℕ → Option (List Entry)

namespace OpenTable

def blockEnd (t : OpenTable) (i : ℕ) : ℕ := (t.index[i + 1]?.map Prod.snd).getD t.indexOffset

/-- The entries of the block between two offsets. -/
def readBlock (transferMax : ℕ) (t : OpenTable) (start stop : ℕ) : List Entry :=
  parseBlockEntries (stop - start) (pread transferMax t.file start (stop - start))

/-- `SSTable::get`, with the cache before and after. There is one `pread`, and a short one throws. -/
def get (transferMax : ℕ) (t : OpenTable) (cache : BlockCache) (key : Key) :
    Except ReadError (Option (Option Bytes)) × BlockCache :=
  if t.bloom.mayContain key.bytes then
    match t.index[blockOf t.index key]? with
    | none => (.ok none, cache)
    | some p =>
      let stop := t.blockEnd (blockOf t.index key)
      match cache p.2 with
      | some block => (.ok (scanBlock key block), cache)
      | none =>
        if stop ≤ p.2 then (.ok none, cache)
        else if (pread transferMax t.file p.2 (stop - p.2)).length < stop - p.2 then (.error .incompleteRead, cache)
        else (.ok (scanBlock key (t.readBlock transferMax p.2 stop)),
          Function.update cache p.2 (some (t.readBlock transferMax p.2 stop)))
  else (.ok none, cache)

/-- The caches a table can find: what its own lookups have put there, less what was evicted. -/
inductive Cached (transferMax : ℕ) (t : OpenTable) : BlockCache → Prop
  | empty : Cached transferMax t fun _ => none
  | get {cache : BlockCache} (h : Cached transferMax t cache) (key : Key) :
      Cached transferMax t (t.get transferMax cache key).2
  | evict {cache : BlockCache} (h : Cached transferMax t cache) (offset : ℕ) :
      Cached transferMax t (Function.update cache offset none)

end OpenTable

end LsmTree.Table

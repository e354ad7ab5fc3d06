import Prismalama.Lib.GoMap
import Prismalama.Lib.GoStrings
import Prismalama.Lib.Slice
import Prismalama.Lib.TagStream
import Prismalama.Tokenizer.Merges

/-!
# Encoding and decoding (`x/tokenizer`)

`Tokenizer.Encode` cuts a text at the special tokens, cuts what is between them into the matches
of the pretokenizer, and encodes every chunk on its own; a large text has its chunks divided
among workers. The text is any sequence of bytes.

The parts of the Go library that decide nothing here are arguments: `newHeap` makes the heap of
`container/heap` for an order, `isLetter` is `unicode.IsLetter`, `procs` is what
`runtime.GOMAXPROCS` returns. `none` stands for a loop that does not end.
-/

namespace Prismalama.XTokenizer

open Prismalama.Lib Prismalama.Tokenizer

inductive TokenizerType where
  | bpe
  | sentencePiece
  deriving DecidableEq

structure Vocabulary where
  values : List GoString
  reverse : GoMap GoString Int
  merges : GoMap GoString Int
  bos : Int
  /-- -1 for none. -/
  byteTokens : UInt8 → Int

structure Tokenizer where
  vocab : Vocabulary
  /-- `FindStringIndex`: where the first match starts and ends. -/
  pretokenizer : Option (GoString → Option (Nat × Nat))
  specialTokens : GoMap GoString Int
  sortedSpecialTokens : List GoString
  typ : TokenizerType

def encodeParallelMinInputBytes : Nat := 4 * 1024

def encodeParallelMinChunksPerWorker : Nat := 8

structure TokenMatch where
  start : Nat
  stop : Nat

structure EncodeChunk where
  text : GoString
  isSpecial : Bool

/-! ## Runes of a text -/

/-- `utf8.DecodeRuneInString`: the first rune and its size. -/
def decodeRuneInString (s : GoString) : Char × Nat :=
  if s = [] then ('\uFFFD', 0)
  else
    match decodeRune s with
    | some r => (r, r.utf8Size)
    | none => ('\uFFFD', 1)

/-- `utf8.RuneStart` -/
def runeStart (b : UInt8) : Bool := b &&& 0xC0 != 0x80

/-- Going back from `start`: the first byte that starts a rune, or the one before `lim`. -/
def lastRuneStart (s : GoString) (lim : Nat) : Nat → Nat
  | 0 => 0
  | start + 1 =>
    if start < lim then start
    else if runeStart (s.getD start 0) then start
    else lastRuneStart s lim start

/-- `utf8.DecodeLastRuneInString` -/
def decodeLastRuneInString (s : GoString) : Char × Nat :=
  if s = [] then ('\uFFFD', 0)
  else
    let last := s.getD (s.length - 1) 0
    if last < 0x80 then (Char.ofNat last.toNat, 1)
    else
      let start := lastRuneStart s (s.length - 4) (s.length - 1)
      let (r, size) := decodeRuneInString (s.drop start)
      if start + size ≠ s.length then ('\uFFFD', 1) else (r, size)

def isNonNewlineWhitespace (s : GoString) : Bool :=
  s != [] && (decodeRunes s).all fun r => r != '\n' && r != '\r' && isSpace r

/-! ## Special tokens -/

/-- The nearer of `pos` and an occurrence of a token. -/
def nearer (remaining : GoString) (pos : Nat) (tok : GoString) : Nat :=
  match index remaining tok with
  | some idx => if idx < pos then idx else pos
  | none => pos

/-- The nearest occurrence of a token; the end for none. -/
def nextPos (tokens : List GoString) (remaining : GoString) : Nat :=
  tokens.foldl (nearer remaining) remaining.length

def splitLoop (tokens : List GoString) : Nat → GoString → Option (List GoString)
  | _, [] => some []
  | 0, _ :: _ => none
  | fuel + 1, b :: rest =>
    let remaining := b :: rest
    match tokens.find? fun tok => tok.isPrefixOf remaining with
    | some tok => (splitLoop tokens fuel (remaining.drop tok.length)).map (tok :: ·)
    | none =>
      let pos := nextPos tokens remaining
      (splitLoop tokens fuel (remaining.drop pos)).map
        ((if 0 < pos then [remaining.take pos] else []) ++ ·)

def splitBySpecialTokens (t : Tokenizer) (s : GoString) : Option (List GoString) :=
  if t.specialTokens.keys = [] then some [s]
  else
    let tokens :=
      if t.sortedSpecialTokens = [] then
        t.specialTokens.keys.mergeSort fun a b => decide (b.length ≤ a.length)
      else t.sortedSpecialTokens
    splitLoop tokens s.length s

/-! ## Chunks of a part -/

/-- Going back from `j`: where the last blank of `part[start:stop]` starts; `stop` for none.
Every rune has a byte, so `stop` rounds are enough. -/
def lastSpaceStart (part : GoString) (start stop : Nat) : Nat → Nat → Nat
  | 0, _ => stop
  | fuel + 1, j =>
    if start < j then
      let (r, size) := decodeLastRuneInString (slice part start j)
      if isSpace r then j - size else lastSpaceStart part start stop fuel (j - size)
    else stop

section Chunks

variable (isLetter : Char → Bool)

/-- The two matches after the call. -/
def adjustWhitespaceBoundary (part : GoString) (curr next : TokenMatch) :
    TokenMatch × TokenMatch :=
  let m := slice part curr.start curr.stop
  let nextText := slice part next.start next.stop
  if !isNonNewlineWhitespace m || nextText == [] then (curr, next)
  else if !isLetter (decodeRuneInString nextText).1 then (curr, next)
  else
    let space := lastSpaceStart part curr.start curr.stop curr.stop curr.stop
    if curr.start < space then ({ curr with stop := space }, { next with start := space })
    else ({ curr with stop := curr.start }, { next with start := curr.start })

/-- The chunk of a match, if it has one. -/
def emit (part : GoString) (m : TokenMatch) : List EncodeChunk :=
  if m.start < m.stop then [⟨slice part m.start m.stop, false⟩] else []

/-- The loop over the matches after `curr`. -/
def chunkLoop (find : GoString → Option (Nat × Nat)) (part : GoString) :
    Nat → Nat → TokenMatch → Option (List EncodeChunk)
  | 0, offset, curr =>
    match find (part.drop offset) with
    | none => some (emit part curr)
    | some _ => none
  | fuel + 1, offset, curr =>
    match find (part.drop offset) with
    | none => some (emit part curr)
    | some loc =>
      let next : TokenMatch := ⟨offset + loc.1, offset + loc.2⟩
      let (curr, next) := adjustWhitespaceBoundary isLetter part curr next
      (chunkLoop find part fuel (offset + loc.2) next).map (emit part curr ++ ·)

/-- `forEachPartChunk`: the chunks in the order of the calls. -/
def forEachPartChunk (t : Tokenizer) (part : GoString) : Option (List EncodeChunk) :=
  if (t.specialTokens.lookup part).isSome then some [⟨part, true⟩]
  else
    match t.pretokenizer with
    | none => some [⟨part, false⟩]
    | some find =>
      match find part with
      | none => some []
      | some loc => chunkLoop isLetter find part part.length loc.2 ⟨loc.1, loc.2⟩

end Chunks

/-! ## The merge loop -/

/-- What a `bpePair` notes beside its two nodes. -/
structure PairKey where
  rank : Int
  value : GoString

/-- `Less` -/
def less (x y : Pair PairKey) : Bool :=
  x.key.rank < y.key.rank || (x.key.rank == y.key.rank && x.a < y.a)

def rules (v : Vocabulary) : MergeRules PairKey where
  key left right :=
    if left = [] ∨ right = [] then none
    else
      match v.merges.lookup (encodeRunes left ++ encodeRunes [' '] ++ encodeRunes right) with
      | none => none
      | some rank =>
        let value := encodeRunes left ++ encodeRunes right
        if (v.reverse.lookup value).isSome then some ⟨rank, value⟩ else none
  joins key left right := encodeRunes left ++ encodeRunes right == key.value

/-- The loop over the heap, which passes over what is no longer linked. -/
def linkedMergeLoop (R : MergeRules PairKey) (heap : Heap (Pair PairKey)) :
    Nat → List Merge → List (Pair PairKey) → Option (List Merge)
  | 0, nodes, q => if (heap.pop q).isNone then some nodes else none
  | fuel + 1, nodes, q =>
    match heap.pop q with
    | none => some nodes
    | some (pair, q) =>
      let left := entry nodes pair.a
      let right := entry nodes pair.b
      if left.runes = [] ∨ right.runes = [] then linkedMergeLoop R heap fuel nodes q
      else if left.n ≠ pair.b ∨ right.p ≠ pair.a then linkedMergeLoop R heap fuel nodes q
      else if R.joins pair.key left.runes right.runes = false then
        linkedMergeLoop R heap fuel nodes q
      else
        let nodes := join nodes pair.a pair.b
        let q := pushPair heap q (pairwise R nodes (entry nodes pair.a).p pair.a)
        let q := pushPair heap q (pairwise R nodes pair.a (entry nodes pair.a).n)
        linkedMergeLoop R heap fuel nodes q

/-! ## Bytes and runes -/

def byteToRune (b : UInt8) : Char :=
  let r := b.toNat
  if r = 0xAD then Char.ofNat 0x143
  else if r ≤ 0x20 then Char.ofNat (r + 0x100)
  else if 0x7F ≤ r ∧ r ≤ 0xA0 then Char.ofNat (r + 0xA2)
  else Char.ofNat r

def decodeByteLevelRune (r : Char) : Option UInt8 :=
  let n := r.toNat
  if n ≤ 0xFF then some (UInt8.ofNat n)
  else if n = 0x100 then some 0
  else if n = 0x143 then some 0xAD
  else if 0x100 < n ∧ n ≤ 0x120 then some (UInt8.ofNat (n - 0x100))
  else if 0x120 < n ∧ n ≤ 0x142 then some (UInt8.ofNat (n - 0xA2))
  else none

/-- What `Decode` writes for a rune of a byte-level token. -/
def runeBytes (r : Char) : GoString :=
  let n := r.toNat
  if n = 0x100 then []
  else if n = 0x143 then [0xAD]
  else if 0x100 < n ∧ n ≤ 0x120 then [UInt8.ofNat (n - 0x100)]
  else if 0x120 < n ∧ n ≤ 0x142 then [UInt8.ofNat (n - 0xA2)]
  else [UInt8.ofNat n]

def spaceSep : GoString := encodeRunes ['\u2581']

/-! ## Encode and Decode -/

section Encode

variable (newHeap : (Pair PairKey → Pair PairKey → Bool) → Heap (Pair PairKey))
  (isLetter : Char → Bool) (t : Tokenizer)

/-- The ids that `appendByteFallback` appends. -/
def byteFallback (token : GoString) : List Int :=
  let bytes := match t.typ with
    | .bpe => (decodeRunes token).filterMap decodeByteLevelRune
    | .sentencePiece => token
  (bytes.map t.vocab.byteTokens).filter fun id => decide (0 ≤ id)

/-- The ids of a node that the merge loop leaves. -/
def nodeIds (runes : List Char) : List Int :=
  if runes = [] then []
  else
    match t.vocab.reverse.lookup (encodeRunes runes) with
    | some id => [id]
    | none => byteFallback t (encodeRunes runes)

def encodeBPEMerge (encoded : GoString) (ids : List Int) : Option (List Int) :=
  let runes := decodeRunes encoded
  if runes = [] then some ids
  else
    let heap := newHeap less
    let nodes := startMerges runes
    let pairs := startPairs (rules t.vocab) heap nodes
    (linkedMergeLoop (rules t.vocab) heap (3 * runes.length + pairs.length) nodes pairs).map
      fun nodes => ids ++ nodes.flatMap fun node => nodeIds t node.runes

/-- `encoded`: the text in which the vocabulary names its tokens. -/
def encodedText (s : GoString) : GoString :=
  match t.typ with
  | .sentencePiece => replaceAll s (encodeRunes [' ']) spaceSep
  | .bpe => encodeRunes (s.map byteToRune)

def encodeChunkInto (s : GoString) (ids : List Int) : Option (List Int) :=
  if s = [] then some ids
  else
    match t.vocab.reverse.lookup (encodedText t s) with
    | some id => some (ids ++ [id])
    | none => encodeBPEMerge newHeap t (encodedText t s) ids

def appendEncodedChunk (ids : List Int) (c : EncodeChunk) : Option (List Int) :=
  if c.isSpecial then
    match t.specialTokens.lookup c.text with
    | some id => some (ids ++ [id])
    | none => some ids
  else encodeChunkInto newHeap t c.text ids

def encodeSequential (chunks : List EncodeChunk) : Option (List Int) :=
  chunks.foldlM (appendEncodedChunk newHeap t) []

/-- What worker `i` leaves in `results[i]`. -/
def workerIds (chunksPer : Nat) (chunks : List EncodeChunk) (i : Nat) : Option (List Int) :=
  let start := i * chunksPer
  let stop := if chunks.length < start + chunksPer then chunks.length else start + chunksPer
  if stop ≤ start then some [] else encodeSequential newHeap t (slice chunks start stop)

/-- The results of the workers in their order. -/
def encodeParallel (numWorkers : Nat) (chunks : List EncodeChunk) : Option (List Int) :=
  let chunksPer := (chunks.length + numWorkers - 1) / numWorkers
  ((List.range numWorkers).mapM (workerIds newHeap t chunksPer chunks)).map List.flatten

/-- The ids of the chunks of a large text. -/
def encodeChunks (procs : Nat) (chunks : List EncodeChunk) : Option (List Int) :=
  let numWorkers := if chunks.length < procs then chunks.length else procs
  if numWorkers < 2 ∨ chunks.length < numWorkers * encodeParallelMinChunksPerWorker then
    encodeSequential newHeap t chunks
  else encodeParallel newHeap t numWorkers chunks

/-- The loop over the parts of a short text. -/
def encodeParts (parts : List GoString) : Option (List Int) :=
  parts.foldlM (fun ids part => (forEachPartChunk isLetter t part).bind fun chunks =>
    chunks.foldlM (appendEncodedChunk newHeap t) ids) []

def prependBOS (addBOS : Bool) (ids : List Int) : List Int :=
  if addBOS && decide (0 ≤ t.vocab.bos) then t.vocab.bos :: ids else ids

def encode (procs : Nat) (s : GoString) (addBOS : Bool) : Option (List Int) :=
  (splitBySpecialTokens t s).bind fun parts =>
    if s.length < encodeParallelMinInputBytes then
      (encodeParts newHeap isLetter t parts).map (prependBOS t addBOS)
    else
      (parts.mapM (forEachPartChunk isLetter t)).bind fun chunks =>
        (encodeChunks newHeap t procs chunks.flatten).map (prependBOS t addBOS)

/-- `"<0x"`, two bytes, `">"` -/
def readsAsByte (token : GoString) : Bool :=
  token.length == 6 && (encodeRunes ['<', '0', 'x']).isPrefixOf token &&
    (encodeRunes ['>']).isSuffixOf token

/-- What `Decode` writes for one token. -/
def decodeToken (token : GoString) : GoString :=
  match t.typ with
  | .sentencePiece =>
    let token := replaceAll token spaceSep (encodeRunes [' '])
    if readsAsByte token then
      match parseUint (slice token 3 5) 16 8 with
      | .ok v => [UInt8.ofNat v]
      | .error _ => token
    else token
  | .bpe => (decodeRunes token).flatMap runeBytes

/-- `none` for the panic of a negative index. -/
def decodeId (id : Int) : Option GoString :=
  if t.vocab.values.length ≤ id then some []
  else if id < 0 then none
  else (t.vocab.values[id.toNat]?).map (decodeToken t)

def decode (ids : List Int) : Option GoString := (ids.mapM (decodeId t)).map List.flatten

end Encode

end Prismalama.XTokenizer

/-
The text indices an engine write updates (`index/bm25.rs`, `index/fuzzy.rs`,
`index/manager.rs`).

Texts are byte strings here.  The BM25 tokenizer looks at ASCII bytes only, and
the symbol normalisation drops and lowercases ASCII bytes only, so on UTF-8 both
are what the source computes on characters.  The average document length, a
floating-point quotient of two fields, is not kept.

`IndexManager` keeps the BM25 and the symbol index.  The vector and the graph
index have calls of their own, which no read or write of a key reaches.
-/
import Uldb.Basic

namespace Uldb

/-! ### UTF-8 -/

/-- A continuation byte in a given interval. -/
def contByte (lo hi b : UInt8) : Bool := lo ≤ b && b ≤ hi

/-- `std::str::from_utf8` accepts the bytes: well-formed UTF-8. -/
def validUtf8 : Bytes → Bool
  | [] => true
  | a :: rest =>
    if a < 0x80 then validUtf8 rest
    else match rest with
      | [] => false
      | b :: rest =>
        if 0xC2 ≤ a && a ≤ 0xDF then contByte 0x80 0xBF b && validUtf8 rest
        else match rest with
          | [] => false
          | c :: rest =>
            if a = 0xE0 then contByte 0xA0 0xBF b && contByte 0x80 0xBF c && validUtf8 rest
            else if a = 0xED then contByte 0x80 0x9F b && contByte 0x80 0xBF c && validUtf8 rest
            else if 0xE1 ≤ a && a ≤ 0xEF then
              contByte 0x80 0xBF b && contByte 0x80 0xBF c && validUtf8 rest
            else match rest with
              | [] => false
              | d :: rest =>
                let tail := contByte 0x80 0xBF c && contByte 0x80 0xBF d && validUtf8 rest
                if a = 0xF0 then contByte 0x90 0xBF b && tail
                else if 0xF1 ≤ a && a ≤ 0xF3 then contByte 0x80 0xBF b && tail
                else if a = 0xF4 then contByte 0x80 0x8F b && tail
                else false

theorem validUtf8_append {a : Bytes} (ha : validUtf8 a = true) (text : Bytes) :
    validUtf8 (a ++ text) = validUtf8 text := by
  induction a using validUtf8.induct with
  | case1 => rfl
  | _ =>
    rw [validUtf8.eq_def] at ha ⊢
    grind

theorem validUtf8_of_ascii {text : Bytes} (h : ∀ b ∈ text, b < 0x80) : validUtf8 text = true := by
  induction text with
  | nil => rw [validUtf8]
  | cons b text ih =>
    rw [validUtf8.eq_def]
    simp only [h b (by simp), if_true]
    exact ih fun c hc => h c (by simp [hc])

/-- `from_utf8(..).unwrap_or("")` -/
def utf8OrEmpty (text : Bytes) : Bytes := if validUtf8 text then text else []

def isAsciiUppercase (b : UInt8) : Bool := 65 ≤ b && b ≤ 90

def isAsciiLowercase (b : UInt8) : Bool := 97 ≤ b && b ≤ 122

def isAsciiAlphanumeric (b : UInt8) : Bool :=
  isAsciiUppercase b || isAsciiLowercase b || (48 ≤ b && b ≤ 57)

def toAsciiLowercase (b : UInt8) : UInt8 := if isAsciiUppercase b then b + 32 else b

/-! ### BM25 -/

structure Bm25Index where
  docs : List Bytes
  keyToDoc : Std.TreeMap Bytes ℕ
  /-- The size of the term pool; the pool itself holds placeholders only. -/
  termPool : ℕ
  termIds : Std.TreeMap Bytes ℕ
  docTerms : List (List ℕ)
  df : Std.TreeMap ℕ ℕ
  postings : Std.TreeMap ℕ (List (ℕ × ℕ))
  docLen : List ℕ
  totalDocLen : ℕ
  activeDocs : ℕ

namespace Bm25Index

def new : Bm25Index := ⟨[], ∅, 0, ∅, [], ∅, ∅, [], 0, 0⟩

/-- Count a term of the document under work. -/
def countTerm (tid : ℕ) : List (ℕ × ℕ) → List (ℕ × ℕ)
  | [] => [(tid, 1)]
  | (t, n) :: rest => if t = tid then (t, n + 1) :: rest else (t, n) :: countTerm tid rest

/-- Intern a token and count it. -/
def internAndCount (index : Bm25Index) (token : Bytes) (termFreq : List (ℕ × ℕ)) :
    Bm25Index × List (ℕ × ℕ) :=
  match index.termIds[token]? with
  | some tid => (index, countTerm tid termFreq)
  | none =>
    ({ index with
        termIds := index.termIds.insert token index.termPool
        termPool := index.termPool + 1 },
      countTerm index.termPool termFreq)

/-- The working state of the inline tokenizer. -/
structure TokenState where
  index : Bm25Index
  termFreq : List (ℕ × ℕ)
  buf : Bytes
  totalTokens : ℕ

/-- End the token in the buffer, if there is one. -/
def TokenState.emit (s : TokenState) : TokenState :=
  if s.buf = [] then s
  else
    let (index, termFreq) := s.index.internAndCount s.buf s.termFreq
    ⟨index, termFreq, [], s.totalTokens + 1⟩

/-- The byte loop of one text; `prev` is the byte before, `inToken` the flag of the loop. -/
def tokenLoop (s : TokenState) (prev : Option UInt8) (inToken : Bool) : Bytes → TokenState
  | [] => s.emit
  | b :: rest =>
    -- a camelCase boundary ends the token
    let s := if isAsciiUppercase b && inToken && (prev.map isAsciiLowercase).getD false
      then s.emit else s
    if isAsciiAlphanumeric b then
      tokenLoop { s with buf := s.buf ++ [toAsciiLowercase b] } (some b) true rest
    else if inToken then tokenLoop s.emit (some b) false rest
    else tokenLoop s (some b) false rest

/-- Append a posting of the document to a term. -/
def addPosting (docId : ℕ) (index : Bm25Index) (tf : ℕ × ℕ) : Bm25Index :=
  { index with
    postings := index.postings.insert tf.1 ((index.postings[tf.1]?).getD [] ++ [(docId, tf.2)])
    df := index.df.insert tf.1 ((index.df[tf.1]?).getD 0 + 1) }

/-- Index a document by tokenizing its two texts directly into term ids. -/
def addDocumentDirect (index : Bm25Index) (key keyText valueText : Bytes) : Bm25Index :=
  let docId := index.docs.length
  let index := { index with
    keyToDoc := index.keyToDoc.insert key docId
    docs := index.docs ++ [key] }
  let s := tokenLoop (tokenLoop ⟨index, [], [], 0⟩ none false keyText) none false valueText
  let index := s.termFreq.foldl (addPosting docId) s.index
  { index with
    docLen := index.docLen ++ [s.totalTokens]
    docTerms := index.docTerms ++ [s.termFreq.map (·.1)]
    totalDocLen := index.totalDocLen + s.totalTokens
    activeDocs := index.activeDocs + 1 }

def containsKey (index : Bm25Index) (key : Bytes) : Bool := index.keyToDoc.contains key

/-- Mark the document of a key as deleted; its postings stay. -/
def removeDocument (index : Bm25Index) (key : Bytes) : Bm25Index :=
  match index.keyToDoc[key]? with
  | none => index
  | some docId =>
    { index with
      keyToDoc := index.keyToDoc.erase key
      docs := index.docs.set docId []
      docLen := index.docLen.set docId 0
      totalDocLen := index.totalDocLen - index.docLen.getD docId 0
      activeDocs := index.activeDocs - 1 }

end Bm25Index

/-! ### Symbols -/

structure FuzzyMatcher where
  symbols : List Bytes
  normalized : List Bytes
  triCounts : List ℕ
  index : Std.TreeMap Bytes (List ℕ)
  maxDistance : ℕ

namespace FuzzyMatcher

def new (maxDistance : ℕ) : FuzzyMatcher := ⟨[], [], [], ∅, maxDistance⟩

/-- Lowercase, without `_`, `-` and blanks. -/
def normalize (symbol : Bytes) : Bytes :=
  (symbol.filter fun b => !(b = 95 || b = 45 || b = 32)).map toAsciiLowercase

/-- The three-byte windows of a byte string. -/
def windows : Bytes → List Bytes
  | a :: b :: c :: rest => [a, b, c] :: windows (b :: c :: rest)
  | _ => []

/-- The trigrams of the text padded with `##` on both sides. -/
def trigrams (text : Bytes) : List Bytes :=
  if text = [] then [] else windows ([35, 35] ++ text ++ [35, 35])

/-- Add a symbol under each of its trigrams, once. -/
def add (m : FuzzyMatcher) (symbol : Bytes) : FuzzyMatcher :=
  let unique := ((trigrams (normalize symbol)).mergeSort fun a b => (compare a b).isLE).dedup
  { m with
    symbols := m.symbols ++ [symbol]
    normalized := m.normalized ++ [normalize symbol]
    triCounts := m.triCounts ++ [unique.length]
    index := unique.foldl
      (fun index tg => index.insert tg ((index[tg]?).getD [] ++ [m.symbols.length])) m.index }

end FuzzyMatcher

/-! ### The manager -/

structure IndexManager where
  bm25 : Bm25Index
  fuzzy : FuzzyMatcher

namespace IndexManager

def new : IndexManager := ⟨Bm25Index.new, FuzzyMatcher.new 4⟩

/-- A record was written: reindex its texts, and add its key as a symbol.  The source takes
both for UTF-8 without a check (`from_utf8_unchecked`).  It reads the value byte by byte, but
decodes the characters of the key: what it does with a key that is no text is undefined, and
is left out here. -/
def onPut (m : IndexManager) (key value : Bytes) : IndexManager :=
  let bm25 := if m.bm25.containsKey key then m.bm25.removeDocument key else m.bm25
  ⟨bm25.addDocumentDirect key key value, m.fuzzy.add key⟩

/-- A record was deleted.  Symbols stay. -/
def onDelete (m : IndexManager) (key : Bytes) : IndexManager :=
  { m with bm25 := m.bm25.removeDocument key }

/-- A live record of the log, on recovery: nothing is removed first. -/
def onReplay (m : IndexManager) (key value : Bytes) : IndexManager :=
  ⟨m.bm25.addDocumentDirect key (utf8OrEmpty key) (utf8OrEmpty value),
    m.fuzzy.add (utf8OrEmpty key)⟩

end IndexManager

end Uldb

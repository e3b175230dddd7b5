import Memclaw.Lib.FirstFit
import Memclaw.Lib.Interleave
import Memclaw.Lib.Split

/-! The block chunker of the ingest path (`ingest_chunking.py`): Markdown tokens to blocks, blocks
to sections. -/

namespace Memclaw.Ingest

open Memclaw.Lib Memclaw.Lib.Interleave

abbrev Text := List Char

/-- What the chunker takes from outside: whitespace, the token counter, and the sentence segmenter,
which may raise. -/
structure ChunkEnv where
  space : Char → Bool
  countTokens : Text → ℕ
  segment : Text → Option (List Text)
  space_blank : space ' ' = true
  space_newline : space '\n' = true
  not_space_mark : space '#' = false
  not_space_dot : space '.' = false

def ChunkEnv.strip (env : ChunkEnv) (text : Text) : Text := trim env.space text

def ChunkEnv.rstrip (env : ChunkEnv) (text : Text) : Text := trimEnd env.space text

inductive Tag
  | heading (depth : ℕ)
  | paragraph
  | bulletList
  | orderedList
  | listItem
  | blockquote
  | table
  | thead
  | tbody
  | tr
  | th
  | td
deriving DecidableEq

inductive TokenType
  | opens (tag : Tag)
  | closes (tag : Tag)
  | inline
  | fence
  | codeBlock
  | hr
deriving DecidableEq

structure Token where
  type : TokenType
  content : Text := []

inductive BlockType
  | heading
  | paragraph
  | list
  | code
  | table
  | blockquote
deriving DecidableEq

structure Block where
  type : BlockType
  text : Text
  depth : ℤ := 0

/-- A block as the parser emits it, with the stripped contents that went into its text. -/
structure Emitted where
  block : Block
  bodies : List Text

def nonempty (texts : List Text) : List Text := texts.filter fun text => !text.isEmpty

def inside (tag : Tag) : ℕ → List Token → List Token
  | _, [] => []
  | depth, t :: ts =>
    if t.type = .opens tag then t :: inside tag (depth + 1) ts
    else if t.type = .closes tag then
      if depth = 0 then [] else t :: inside tag (depth - 1) ts
    else t :: inside tag depth ts

def insideTable (ts : List Token) : List Token := ts.takeWhile fun t => t.type ≠ .closes .table

def inlines (env : ChunkEnv) (ts : List Token) : List Text :=
  (ts.filter fun t => t.type = .inline).map fun t => env.strip t.content

def single (type : BlockType) (body : Text) (depth : ℤ := 0) : List Emitted :=
  if body.isEmpty then [] else [⟨⟨type, body, depth⟩, [body]⟩]

def emitList (env : ChunkEnv) (ts : List Token) : List Emitted :=
  let items := nonempty (inlines env ts)
  if items.isEmpty then []
  else [⟨⟨.list, ['\n'].intercalate (items.map fun body => ['-', ' '] ++ body), 0⟩, items⟩]

def emitQuote (env : ChunkEnv) (ts : List Token) : List Emitted :=
  let parts := inlines env ts
  if parts.isEmpty then [] else [⟨⟨.blockquote, ['\n'].intercalate parts, 0⟩, nonempty parts⟩]

def rowStep (env : ChunkEnv) (rows : List (List Text) × List Text) (t : Token) :
    List (List Text) × List Text :=
  match t.type with
  | .opens .tr => (rows.1, [])
  | .closes .tr => if rows.2.isEmpty then rows else (rows.1 ++ [rows.2], rows.2)
  | .inline => (rows.1, rows.2 ++ [env.strip t.content])
  | _ => rows

def emitTable (env : ChunkEnv) (ts : List Token) : List Emitted :=
  let rows := (ts.foldl (rowStep env) ([], [])).1
  if rows.isEmpty then []
  else [⟨⟨.table, ['\n'].intercalate (rows.map [' ', '|', ' '].intercalate), 0⟩,
    nonempty rows.flatten⟩]

/-- The walk over the tokens, the next `skip` of which are jumped over; none where it reads past
the end. -/
def parseFrom (env : ChunkEnv) : ℕ → List Token → Option (List Emitted)
  | _, [] => some []
  | skip + 1, _ :: ts => parseFrom env skip ts
  | 0, t :: ts =>
    match t.type with
    | .opens (.heading depth) => ts.head?.bind fun inline =>
      (single .heading (env.strip inline.content) depth ++ ·) <$> parseFrom env 2 ts
    | .opens .paragraph => ts.head?.bind fun inline =>
      (single .paragraph (env.strip inline.content) ++ ·) <$> parseFrom env 2 ts
    | .opens .bulletList =>
      let inner := inside .bulletList 0 ts
      (emitList env inner ++ ·) <$> parseFrom env (inner.length + 1) ts
    | .opens .orderedList =>
      let inner := inside .orderedList 0 ts
      (emitList env inner ++ ·) <$> parseFrom env (inner.length + 1) ts
    | .fence => (single .code (env.rstrip t.content) ++ ·) <$> parseFrom env 0 ts
    | .codeBlock => (single .code (env.rstrip t.content) ++ ·) <$> parseFrom env 0 ts
    | .opens .table =>
      let inner := insideTable ts
      (emitTable env inner ++ ·) <$> parseFrom env (inner.length + 1) ts
    | .opens .blockquote =>
      let inner := inside .blockquote 0 ts
      (emitQuote env inner ++ ·) <$> parseFrom env (inner.length + 1) ts
    | _ => parseFrom env 0 ts

def parseMarkdown (env : ChunkEnv) (ts : List Token) : Option (List Emitted) := parseFrom env 0 ts

def splitNaively : Text → List Text
  | [] => [[]]
  | '.' :: ' ' :: rest => [] :: splitNaively rest
  | c :: rest => (splitNaively rest).modifyHead (c :: ·)

def sentences (env : ChunkEnv) (text : Text) : List Text :=
  match env.segment text with
  | some pieces => nonempty (pieces.map env.strip)
  | none => (nonempty ((splitNaively text).map env.strip)).map (· ++ ['.'])

structure Splitter where
  out : List Text
  current : Text
  currentTokens : ℕ

def splitStep (env : ChunkEnv) (hard : ℤ) (s : Splitter) (sent : Text) : Splitter :=
  let sentTokens := env.countTokens sent
  if hard < s.currentTokens + sentTokens ∧ s.current.isEmpty = false then
    ⟨s.out ++ [env.strip s.current], sent, sentTokens⟩
  else
    ⟨s.out, if s.current.isEmpty then sent else env.strip (s.current ++ [' '] ++ sent),
      s.currentTokens + sentTokens⟩

def splitOversizedParagraph (env : ChunkEnv) (text : Text) (hard : ℤ) : List Text :=
  let s := (sentences env text).foldl (splitStep env hard) ⟨[], [], 0⟩
  if s.current.isEmpty then s.out else s.out ++ [env.strip s.current]

structure Part where
  place : ℕ
  type : BlockType
  text : Text

structure Crumb where
  place : ℕ
  depth : ℤ
  text : Text

structure Section where
  text : Text
  breadcrumb : Text
  tokenCount : ℕ
  blockTypes : List BlockType
  parts : List Part
  trail : List Crumb

/-- The accumulator holds the parts with their types; the stack has its innermost heading first. -/
structure Packer where
  sections : List Section := []
  parts : List Part := []
  currentTokens : ℕ := 0
  stack : List Crumb := []

def blankLine : Text := ['\n', '\n']

def crumbs (trail : List Crumb) : Text := [' ', '>', ' '].intercalate (trail.map Crumb.text)

def Packer.sectionOf (s : Packer) (text : Text) (tokenCount : ℕ) (parts : List Part) : Section where
  text := text
  breadcrumb := crumbs s.stack.reverse
  tokenCount := tokenCount
  blockTypes := parts.map Part.type
  parts := parts
  trail := s.stack.reverse

def joined (env : ChunkEnv) (parts : List Part) : Text :=
  env.strip (blankLine.intercalate (parts.map Part.text))

def Packer.flush (env : ChunkEnv) (s : Packer) : Packer :=
  if s.parts.isEmpty then s
  else
    { s with
      sections := s.sections ++
        if (joined env s.parts).isEmpty then []
        else [s.sectionOf (joined env s.parts) s.currentTokens s.parts]
      parts := []
      currentTokens := 0 }

def Packer.emit (s : Packer) (text : Text) (tokenCount : ℕ) (part : Part) : Packer :=
  { s with sections := s.sections ++ [s.sectionOf text tokenCount [part]] }

def Packer.add (s : Packer) (part : Part) (tokens : ℕ) : Packer :=
  { s with parts := s.parts ++ [part], currentTokens := s.currentTokens + tokens }

def Packer.enter (s : Packer) (crumb : Crumb) : Packer :=
  { s with stack := crumb :: s.stack.dropWhile fun above => crumb.depth ≤ above.depth }

def Block.rendering (b : Block) : Text :=
  match b.type with
  | .heading => List.replicate b.depth.toNat '#' ++ [' '] ++ b.text
  | _ => b.text

def atomic : List BlockType := [.list, .table, .code]

def chunkStep (env : ChunkEnv) (soft hard : ℤ) (s : Packer) (b : Block × ℕ) : Packer :=
  let blockTokens := env.countTokens b.1.text
  let part : Part := ⟨b.2, b.1.type, b.1.rendering⟩
  if b.1.type = .heading then
    let closed := if b.1.depth ≤ 2 ∧ s.parts.isEmpty = false then s.flush env else s
    (closed.enter ⟨b.2, b.1.depth, b.1.text⟩).add part blockTokens
  else if b.1.type ∈ atomic ∧ hard < blockTokens then (s.flush env).emit b.1.text blockTokens part
  else if b.1.type = .paragraph ∧ hard < blockTokens then
    (splitOversizedParagraph env b.1.text hard).foldl
      (fun s sub => s.emit sub (env.countTokens sub) ⟨b.2, .paragraph, sub⟩) (s.flush env)
  else
    let closed :=
      if soft < s.currentTokens + blockTokens ∧ s.parts.isEmpty = false then s.flush env else s
    closed.add part blockTokens

def chunkBlocks (env : ChunkEnv) (soft hard : ℤ) (blocks : List Block) : List Section :=
  ((run (chunkStep env soft hard) {} blocks.zipIdx).flush env).sections

end Memclaw.Ingest

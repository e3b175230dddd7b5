import Memclaw.Ingest.ChunkDefs

/-! The tokens whose contents reach a block: all of a well-nested list but the code inside lists and
quotes. -/

namespace Memclaw.Ingest

open Memclaw.Lib Memclaw.Lib.Interleave

variable {env : ChunkEnv}

inductive Cells : List Token → Prop
  | nil : Cells []
  | cell {tag : Tag} {content body content' : Text} {ts : List Token} (htag : tag = .th ∨ tag = .td)
      (h : Cells ts) :
      Cells (⟨.opens tag, content⟩ :: ⟨.inline, body⟩ :: ⟨.closes tag, content'⟩ :: ts)

inductive Rows : List Token → Prop
  | nil : Rows []
  | row {content content' : Text} {cells ts : List Token} (hcells : Cells cells) (h : Rows ts) :
      Rows (⟨.opens .tr, content⟩ :: (cells ++ ⟨.closes .tr, content'⟩ :: ts))
  | part {tag : Tag} {content content' : Text} {rows ts : List Token}
      (htag : tag = .thead ∨ tag = .tbody) (hrows : Rows rows) (h : Rows ts) :
      Rows (⟨.opens tag, content⟩ :: (rows ++ ⟨.closes tag, content'⟩ :: ts))

def Tag.holdsText : Tag → Bool
  | .heading _ => true
  | .paragraph => true
  | _ => false

def Tag.walked : Tag → Bool
  | .bulletList => true
  | .orderedList => true
  | .blockquote => true
  | _ => false

theorem Tag.walked_of_holdsText {tag : Tag} (h : tag.holdsText = true) : tag.walked = false := by
  cases tag <;> first | rfl | cases h

def TokenType.leaf : TokenType → Bool
  | .fence => true
  | .codeBlock => true
  | .hr => true
  | _ => false

inductive Nested : List Token → Prop
  | nil : Nested []
  | leaf {t : Token} {ts : List Token} (ht : t.type.leaf = true) (h : Nested ts) : Nested (t :: ts)
  | text {tag : Tag} {content body content' : Text} {ts : List Token} (htag : tag.holdsText = true)
      (h : Nested ts) :
      Nested (⟨.opens tag, content⟩ :: ⟨.inline, body⟩ :: ⟨.closes tag, content'⟩ :: ts)
  | container {tag : Tag} {content content' : Text} {inner ts : List Token}
      (htag : tag = .listItem ∨ tag.walked = true) (hinner : Nested inner) (h : Nested ts) :
      Nested (⟨.opens tag, content⟩ :: (inner ++ ⟨.closes tag, content'⟩ :: ts))
  | table {content content' : Text} {rows ts : List Token} (hrows : Rows rows) (h : Nested ts) :
      Nested (⟨.opens .table, content⟩ :: (rows ++ ⟨.closes .table, content'⟩ :: ts))

def Token.isCode (t : Token) : Bool := t.type = .fence || t.type = .codeBlock

def Token.body (env : ChunkEnv) (t : Token) : Text :=
  if t.type = .inline then env.strip t.content
  else if t.isCode then env.rstrip t.content
  else []

def contents (env : ChunkEnv) (ts : List Token) : List Text := nonempty (ts.map (Token.body env))

def Token.code (env : ChunkEnv) (t : Token) : Bool := t.isCode && !(env.rstrip t.content).isEmpty

def depthAfter (depth : ℕ) (t : Token) : ℕ :=
  match t.type with
  | .opens tag => if tag.walked then depth + 1 else depth
  | .closes tag => if tag.walked then depth - 1 else depth
  | _ => depth

def CodeOutside (env : ChunkEnv) (depth : ℕ) (ts : List Token) : Prop :=
  Along depthAfter (fun depth t => t.code env = true → depth = 0) depth ts

def Block.Shows (b : Block) (bodies : List Text) : Prop :=
  match b.type with
  | .list => b.text = ['\n'].intercalate (bodies.map fun body => ['-', ' '] ++ body)
  | .blockquote => ∃ parts, nonempty parts = bodies ∧ b.text = ['\n'].intercalate parts
  | .table => ∃ rows : List (List Text), nonempty rows.flatten = bodies ∧
      b.text = ['\n'].intercalate (rows.map [' ', '|', ' '].intercalate)
  | _ => bodies = [b.text]

/-- Every content that is not blank is in exactly one block, in the order of the tokens. -/
def KeepsTokens (env : ChunkEnv) (ts : List Token) : Prop :=
  ∃ blocks, parseMarkdown env ts = some blocks ∧ blocks.flatMap Emitted.bodies = contents env ts ∧
    ∀ e ∈ blocks, e.block.Shows e.bodies

theorem nonempty_append (texts later : List Text) :
    nonempty (texts ++ later) = nonempty texts ++ nonempty later := List.filter_append ..

theorem contents_append (ts later : List Token) :
    contents env (ts ++ later) = contents env ts ++ contents env later := by
  rw [contents, List.map_append, nonempty_append]
  rfl

theorem contents_cons (t : Token) (ts : List Token) :
    contents env (t :: ts) = nonempty [t.body env] ++ contents env ts :=
  contents_append [t] ts

theorem inlines_append (ts later : List Token) :
    inlines env (ts ++ later) = inlines env ts ++ inlines env later := by
  rw [inlines, List.filter_append, List.map_append]
  rfl

theorem append_eq_append_iff_of_sublist {α : Type} {as as' bs bs' : List α} (ha : as.Sublist as')
    (hb : bs.Sublist bs') : as ++ bs = as' ++ bs' ↔ as = as' ∧ bs = bs' := by
  -- Two parts of a list are each kept whole where the list is.
  constructor
  · intro h
    have hlengths := congrArg List.length h
    rw [List.length_append, List.length_append] at hlengths
    have hle := ha.length_le
    have hle' := hb.length_le
    exact ⟨ha.eq_of_length (by omega), hb.eq_of_length (by omega)⟩
  · rintro ⟨rfl, rfl⟩
    rfl

theorem inline_body (env : ChunkEnv) (t : Token) :
    (nonempty (inlines env [t])).Sublist (nonempty [t.body env]) ∧
      (nonempty (inlines env [t]) = nonempty [t.body env] ↔ t.code env = false) := by
  unfold inlines Token.body Token.code Token.isCode
  by_cases hinline : t.type = .inline
  · simp [hinline]
  · by_cases hcode : t.type = .fence ∨ t.type = .codeBlock
    · have hcode' : (decide (t.type = .fence) || decide (t.type = .codeBlock)) = true := by simpa using hcode
      simp [hinline, hcode', nonempty]
    · have hcode' : (decide (t.type = .fence) || decide (t.type = .codeBlock)) = false := by
        simpa using hcode
      simp [hinline, hcode', nonempty]

theorem inlines_contents (env : ChunkEnv) (ts : List Token) :
    (nonempty (inlines env ts)).Sublist (contents env ts) ∧
      (nonempty (inlines env ts) = contents env ts ↔ ∀ t ∈ ts, t.code env = false) := by
  induction ts with
  | nil => exact ⟨.refl _, fun _ t ht => (List.not_mem_nil ht).elim, fun _ => rfl⟩
  | cons t ts ih =>
    have hone := inline_body env t
    have hsplit : nonempty (inlines env (t :: ts)) =
        nonempty (inlines env [t]) ++ nonempty (inlines env ts) := by
      rw [← nonempty_append, ← inlines_append]
      rfl
    rw [hsplit, contents_cons]
    refine ⟨hone.1.append ih.1, ?_⟩
    rw [append_eq_append_iff_of_sublist hone.1 ih.1, hone.2, ih.2, List.forall_mem_cons]

theorem inside_cons_other {tag : Tag} {t : Token} (hopen : t.type ≠ .opens tag)
    (hclose : t.type ≠ .closes tag) (depth : ℕ) (ts : List Token) :
    inside tag depth (t :: ts) = t :: inside tag depth ts := by
  rw [inside, if_neg hopen, if_neg hclose]

theorem inside_cons_open {tag : Tag} {content : Text} (depth : ℕ) (ts : List Token) :
    inside tag depth (⟨.opens tag, content⟩ :: ts) =
      ⟨.opens tag, content⟩ :: inside tag (depth + 1) ts := by
  rw [inside, if_pos rfl]

theorem inside_cons_close {tag : Tag} {content : Text} (depth : ℕ) (ts : List Token) :
    inside tag (depth + 1) (⟨.closes tag, content⟩ :: ts) =
      ⟨.closes tag, content⟩ :: inside tag depth ts := by
  rw [inside, if_neg TokenType.noConfusion, if_pos rfl, if_neg (Nat.succ_ne_zero depth),
    Nat.add_sub_cancel]

theorem inside_close {tag : Tag} {content : Text} (ts : List Token) :
    inside tag 0 (⟨.closes tag, content⟩ :: ts) = [] := by
  rw [inside, if_neg TokenType.noConfusion, if_pos rfl, if_pos rfl]

theorem inside_append {tag : Tag} {ts : List Token}
    (h : ∀ t ∈ ts, t.type ≠ .opens tag ∧ t.type ≠ .closes tag) (depth : ℕ) (rest : List Token) :
    inside tag depth (ts ++ rest) = ts ++ inside tag depth rest := by
  induction ts with
  | nil => rfl
  | cons t ts ih =>
    obtain ⟨⟨hopen, hclose⟩, hts⟩ := List.forall_mem_cons.mp h
    rw [List.cons_append, inside_cons_other hopen hclose, ih hts]
    rfl

theorem parseFrom_skip (env : ChunkEnv) (ts rest : List Token) :
    parseFrom env ts.length (ts ++ rest) = parseFrom env 0 rest := by
  induction ts with
  | nil => rfl
  | cons t ts ih => exact ih

theorem parseFrom_span (inner : List Token) (t : Token) (rest : List Token) :
    parseFrom env (inner.length + 1) (inner ++ t :: rest) = parseFrom env 0 rest := by
  have h := parseFrom_skip env (inner ++ [t]) rest
  rw [List.length_append, List.append_assoc] at h
  exact h

def Tag.tabular : Tag → Bool
  | .thead => true
  | .tbody => true
  | .tr => true
  | .th => true
  | .td => true
  | _ => false

theorem Tag.walked_of_tabular {tag : Tag} (h : tag.tabular = true) : tag.walked = false := by
  cases tag <;> first | rfl | cases h

def TokenType.tabular : TokenType → Bool
  | .inline => true
  | .opens tag => tag.tabular
  | .closes tag => tag.tabular
  | _ => false

theorem Cells.tabular {ts : List Token} (h : Cells ts) : ∀ t ∈ ts, t.type.tabular = true := by
  induction h with
  | nil => exact List.forall_mem_nil _
  | cell htag h ih =>
    have htabular : ∀ tag : Tag, tag = .th ∨ tag = .td → tag.tabular = true := by
      rintro tag (rfl | rfl) <;> rfl
    exact List.forall_mem_cons.mpr ⟨htabular _ htag, List.forall_mem_cons.mpr ⟨rfl,
      List.forall_mem_cons.mpr ⟨htabular _ htag, ih⟩⟩⟩

theorem Rows.tabular {ts : List Token} (h : Rows ts) : ∀ t ∈ ts, t.type.tabular = true := by
  induction h with
  | nil => exact List.forall_mem_nil _
  | row hcells h ih =>
    exact List.forall_mem_cons.mpr ⟨rfl, List.forall_mem_append.mpr ⟨hcells.tabular,
      List.forall_mem_cons.mpr ⟨rfl, ih⟩⟩⟩
  | part htag hrows h ihrows ih =>
    have htabular : ∀ tag : Tag, tag = .thead ∨ tag = .tbody → tag.tabular = true := by
      rintro tag (rfl | rfl) <;> rfl
    exact List.forall_mem_cons.mpr ⟨htabular _ htag, List.forall_mem_append.mpr ⟨ihrows,
      List.forall_mem_cons.mpr ⟨htabular _ htag, ih⟩⟩⟩

theorem foldl_cells {ts : List Token} (h : Cells ts) (rows : List (List Text)) (current : List Text) :
    ts.foldl (rowStep env) (rows, current) = (rows, current ++ inlines env ts) := by
  induction h generalizing current with
  | nil => exact congrArg (Prod.mk rows) (List.append_nil current).symm
  | @cell tag content body content' ts htag h ih =>
    have hopen : rowStep env (rows, current) ⟨.opens tag, content⟩ = (rows, current) := by
      rcases htag with rfl | rfl <;> rfl
    have hclose : rowStep env (rows, current ++ [env.strip body]) ⟨.closes tag, content'⟩ =
        (rows, current ++ [env.strip body]) := by
      rcases htag with rfl | rfl <;> rfl
    rw [List.foldl_cons, hopen, List.foldl_cons]
    have hinline : rowStep env (rows, current) ⟨.inline, body⟩ =
        (rows, current ++ [env.strip body]) := rfl
    rw [hinline, List.foldl_cons, hclose, ih, List.append_assoc]
    rfl

theorem foldl_rows (env : ChunkEnv) {ts : List Token} (h : Rows ts) (rows : List (List Text)) (current : List Text) :
    ∃ more current', ts.foldl (rowStep env) (rows, current) = (rows ++ more, current') ∧
      nonempty more.flatten = nonempty (inlines env ts) := by
  -- The rows read hold all inline contents of the table.
  induction h generalizing rows current with
  | nil => exact ⟨[], current, congrArg (Prod.mk · current) (List.append_nil rows).symm, rfl⟩
  | @row content content' cells ts hcells h ih =>
    have hinlines : inlines env (⟨.opens .tr, content⟩ :: (cells ++ ⟨.closes .tr, content'⟩ :: ts)) =
        inlines env cells ++ inlines env ts := inlines_append cells (⟨.closes .tr, content'⟩ :: ts)
    have hopen : rowStep env (rows, current) ⟨.opens .tr, content⟩ = (rows, []) := rfl
    rw [List.foldl_cons, hopen, List.foldl_append, foldl_cells hcells, List.nil_append, List.foldl_cons,
      hinlines, nonempty_append]
    -- A row without cells is left out.
    cases hcase : inlines env cells with
    | nil =>
      have hclose : rowStep env (rows, []) ⟨.closes .tr, content'⟩ = (rows, []) := rfl
      rw [hclose]
      exact ih rows []
    | cons cell cells' =>
      have hclose : rowStep env (rows, cell :: cells') ⟨.closes .tr, content'⟩ =
          (rows ++ [cell :: cells'], cell :: cells') := rfl
      obtain ⟨more, current', hfold, hmore⟩ := ih (rows ++ [cell :: cells']) (cell :: cells')
      refine ⟨(cell :: cells') :: more, current', ?_, ?_⟩
      · rw [hclose, hfold, List.append_assoc]
        rfl
      · rw [List.flatten_cons, nonempty_append, hmore]
  | @part tag content content' inner ts htag hrows h ihrows ih =>
    have hinlines : inlines env (⟨.opens tag, content⟩ :: (inner ++ ⟨.closes tag, content'⟩ :: ts)) =
        inlines env inner ++ inlines env ts := inlines_append inner (⟨.closes tag, content'⟩ :: ts)
    have hopen : ∀ state, rowStep env state ⟨.opens tag, content⟩ = state := by
      rcases htag with rfl | rfl <;> exact fun state => rfl
    have hclose : ∀ state, rowStep env state ⟨.closes tag, content'⟩ = state := by
      rcases htag with rfl | rfl <;> exact fun state => rfl
    obtain ⟨more, current', hfold, hmore⟩ := ihrows rows current
    obtain ⟨more', current'', hfold', hmore'⟩ := ih (rows ++ more) current'
    refine ⟨more ++ more', current'', ?_, ?_⟩
    · rw [List.foldl_cons, hopen, List.foldl_append, hfold, List.foldl_cons, hclose, hfold',
        List.append_assoc]
    · rw [hinlines, List.flatten_append, nonempty_append, nonempty_append, hmore, hmore']

theorem code_of_not_leaf {type : TokenType} {content : Text} (h : type.leaf = false) :
    (Token.mk type content).code env = false := by
  have hcode : (Token.mk type content).isCode = false := by
    cases type <;> first | rfl | cases h
  rw [Token.code, hcode, Bool.false_and]

theorem not_code_of_tabular {t : Token} (h : t.type.tabular = true) : t.code env = false := by
  apply code_of_not_leaf
  cases htype : t.type with
  | fence => exact absurd (htype ▸ h) Bool.noConfusion
  | codeBlock => exact absurd (htype ▸ h) Bool.noConfusion
  | hr => exact absurd (htype ▸ h) Bool.noConfusion
  | _ => rfl

theorem depthAfter_of_tabular {t : Token} (h : t.type.tabular = true) (depth : ℕ) :
    depthAfter depth t = depth := by
  unfold depthAfter
  cases htype : t.type with
  | opens tag =>
    rw [htype] at h
    simp [Tag.walked_of_tabular h]
  | closes tag =>
    rw [htype] at h
    simp [Tag.walked_of_tabular h]
  | _ => rfl

theorem run_depthAfter_of_tabular {ts : List Token} (h : ∀ t ∈ ts, t.type.tabular = true) (depth : ℕ) :
    run depthAfter depth ts = depth := by
  induction ts with
  | nil => rfl
  | cons t ts ih =>
    obtain ⟨ht, hts⟩ := List.forall_mem_cons.mp h
    rw [run_cons, depthAfter_of_tabular ht, ih hts]

theorem codeOutside_append {depth : ℕ} {ts later : List Token} :
    CodeOutside env depth (ts ++ later) ↔
      CodeOutside env depth ts ∧ CodeOutside env (run depthAfter depth ts) later := Along.append

theorem codeOutside_of_not_code {ts : List Token} (h : ∀ t ∈ ts, t.code env = false) (depth : ℕ) :
    CodeOutside env depth ts := by
  induction ts generalizing depth with
  | nil => trivial
  | cons t ts ih =>
    obtain ⟨ht, hts⟩ := List.forall_mem_cons.mp h
    exact ⟨fun hcode => absurd (ht.symm.trans hcode) Bool.noConfusion, ih hts _⟩

theorem codeOutside_cons {t : Token} {depth : ℕ} {ts : List Token} :
    CodeOutside env depth (t :: ts) ↔
      (t.code env = true → depth = 0) ∧ CodeOutside env (depthAfter depth t) ts := Iff.rfl

theorem Nested.run_depth {ts : List Token} (h : Nested ts) (depth : ℕ) :
    run depthAfter depth ts = depth := by
  induction h generalizing depth with
  | nil => rfl
  | @leaf t ts ht h ih =>
    have hdepth : depthAfter depth t = depth := by
      unfold depthAfter
      cases htype : t.type <;> simp_all [TokenType.leaf]
    rw [run_cons, hdepth, ih]
  | @text tag content body content' ts htag h ih =>
    have hwalked := Tag.walked_of_holdsText htag
    have hopen : depthAfter depth ⟨.opens tag, content⟩ = depth := by simp [depthAfter, hwalked]
    have hinline : depthAfter depth ⟨.inline, body⟩ = depth := rfl
    have hclose : depthAfter depth ⟨.closes tag, content'⟩ = depth := by simp [depthAfter, hwalked]
    rw [run_cons, hopen, run_cons, hinline, run_cons, hclose, ih]
  | @container tag content content' inner ts htag hinner h ihinner ih =>
    rw [run_cons, run_append, ihinner, run_cons]
    have hback : depthAfter (depthAfter depth ⟨.opens tag, content⟩) ⟨.closes tag, content'⟩ = depth := by
      cases hwalked : tag.walked <;> simp [depthAfter, hwalked]
    rw [hback, ih]
  | @table content content' rows ts hrows h ih =>
    have hopen : depthAfter depth ⟨.opens .table, content⟩ = depth := rfl
    have hclose : depthAfter depth ⟨.closes .table, content'⟩ = depth := rfl
    rw [run_cons, hopen, run_append, run_depthAfter_of_tabular hrows.tabular, run_cons, hclose, ih]

theorem Nested.codeOutside_iff {ts : List Token} (h : Nested ts) {depth : ℕ} (hdepth : 0 < depth) :
    CodeOutside env depth ts ↔ ∀ t ∈ ts, t.code env = false := by
  -- Inside a list or a quote all code counts.
  constructor
  swap
  · exact fun hcode => codeOutside_of_not_code hcode depth
  induction h generalizing depth with
  | nil => exact fun _ => List.forall_mem_nil _
  | @leaf t ts ht h ih =>
    intro hout
    obtain ⟨hcode, hrest⟩ := codeOutside_cons.mp hout
    have hsame : depthAfter depth t = depth := Nested.run_depth (.leaf ht .nil) depth
    rw [hsame] at hrest
    refine List.forall_mem_cons.mpr ⟨?_, ih hdepth hrest⟩
    by_contra hnot
    exact hdepth.ne' (hcode (by simpa using hnot))
  | @text tag content body content' ts htag h ih =>
    intro hout
    have hrest : CodeOutside env (run depthAfter depth [⟨.opens tag, content⟩, ⟨.inline, body⟩,
      ⟨.closes tag, content'⟩]) ts := (codeOutside_append.mp hout).2
    rw [Nested.run_depth (.text htag .nil)] at hrest
    exact List.forall_mem_cons.mpr ⟨code_of_not_leaf rfl, List.forall_mem_cons.mpr ⟨code_of_not_leaf rfl,
      List.forall_mem_cons.mpr ⟨code_of_not_leaf rfl, ih hdepth hrest⟩⟩⟩
  | @container tag content content' inner ts htag hinner h ihinner ih =>
    intro hout
    obtain ⟨-, hbehind⟩ := codeOutside_cons.mp hout
    obtain ⟨hin, hafter⟩ := codeOutside_append.mp hbehind
    have hpos : 0 < depthAfter depth ⟨.opens tag, content⟩ := by
      cases hwalked : tag.walked <;> simp [depthAfter, hwalked, hdepth]
    have hrest : CodeOutside env (run depthAfter depth (⟨.opens tag, content⟩ :: (inner ++
        [⟨.closes tag, content'⟩]))) ts := by
      rw [run_cons, run_append]
      exact (codeOutside_cons.mp hafter).2
    rw [Nested.run_depth (.container htag hinner .nil)] at hrest
    exact List.forall_mem_cons.mpr ⟨code_of_not_leaf rfl, List.forall_mem_append.mpr ⟨ihinner hpos hin,
      List.forall_mem_cons.mpr ⟨code_of_not_leaf rfl, ih hdepth hrest⟩⟩⟩
  | @table content content' rows ts hrows h ih =>
    intro hout
    obtain ⟨-, hbehind⟩ := codeOutside_cons.mp hout
    obtain ⟨-, hafter⟩ := codeOutside_append.mp hbehind
    rw [run_depthAfter_of_tabular hrows.tabular] at hafter
    exact List.forall_mem_cons.mpr ⟨code_of_not_leaf rfl, List.forall_mem_append.mpr
      ⟨fun t ht => not_code_of_tabular (hrows.tabular t ht),
        List.forall_mem_cons.mpr ⟨code_of_not_leaf rfl, ih hdepth (codeOutside_cons.mp hafter).2⟩⟩⟩

theorem Nested.inside_append {tag : Tag} (htag : tag.walked = true) {ts : List Token} (h : Nested ts)
    (depth : ℕ) (rest : List Token) :
    inside tag depth (ts ++ rest) = ts ++ inside tag depth rest := by
  have hother : ∀ {tag' : Tag} {content : Text}, tag' ≠ tag →
      (∀ depth later, inside tag depth (⟨.opens tag', content⟩ :: later) =
          ⟨.opens tag', content⟩ :: inside tag depth later) ∧
        ∀ depth later, inside tag depth (⟨.closes tag', content⟩ :: later) =
          ⟨.closes tag', content⟩ :: inside tag depth later := by
    intro tag' content hne
    exact ⟨inside_cons_other (fun heq => hne (TokenType.opens.inj heq)) TokenType.noConfusion,
      inside_cons_other TokenType.noConfusion fun heq => hne (TokenType.closes.inj heq)⟩
  induction h generalizing depth rest with
  | nil => rfl
  | @leaf t ts ht h ih =>
    have hopen : t.type ≠ .opens tag := by
      intro heq
      rw [heq] at ht
      cases ht
    have hclose : t.type ≠ .closes tag := by
      intro heq
      rw [heq] at ht
      cases ht
    rw [List.cons_append, inside_cons_other hopen hclose, ih]
    rfl
  | @text tag' content body content' ts htag' h ih =>
    have hne : tag' ≠ tag := by
      rintro rfl
      exact Bool.noConfusion ((Tag.walked_of_holdsText htag').symm.trans htag)
    rw [List.cons_append, List.cons_append, List.cons_append, (hother hne).1,
      inside_cons_other TokenType.noConfusion TokenType.noConfusion, (hother hne).2, ih]
    rfl
  | @container tag' content content' inner ts htag' hinner h ihinner ih =>
    rw [List.cons_append, List.append_assoc, List.cons_append]
    by_cases hsame : tag' = tag
    · subst hsame
      rw [inside_cons_open, ihinner, inside_cons_close, ih]
      simp only [List.cons_append, List.append_assoc]
    · rw [(hother hsame).1, ihinner, (hother hsame).2, ih]
      simp only [List.cons_append, List.append_assoc]
  | @table content content' rows ts hrows h ih =>
    have hne : Tag.table ≠ tag := by
      rintro rfl
      cases htag
    have hrowsAside : ∀ t ∈ rows, t.type ≠ .opens tag ∧ t.type ≠ .closes tag := by
      intro t ht
      have htabular := hrows.tabular t ht
      constructor <;>
      · intro heq
        rw [heq] at htabular
        exact Bool.noConfusion ((Tag.walked_of_tabular htabular).symm.trans htag)
    rw [List.cons_append, List.append_assoc, List.cons_append, (hother hne).1,
      Ingest.inside_append hrowsAside, (hother hne).2, ih]
    simp only [List.cons_append, List.append_assoc]

structure Parsed (env : ChunkEnv) (ts : List Token) (blocks : List Emitted) : Prop where
  parse : ∀ rest, parseFrom env 0 (ts ++ rest) = (blocks ++ ·) <$> parseFrom env 0 rest
  sublist : (blocks.flatMap Emitted.bodies).Sublist (contents env ts)
  whole : blocks.flatMap Emitted.bodies = contents env ts ↔ CodeOutside env 0 ts
  shows : ∀ e ∈ blocks, e.block.Shows e.bodies
  depth : run depthAfter 0 ts = 0

theorem Parsed.append {ts later : List Token} {blocks more : List Emitted}
    (h : Parsed env ts blocks) (h' : Parsed env later more) :
    Parsed env (ts ++ later) (blocks ++ more) where
  parse rest := by
    rw [List.append_assoc, h.parse, h'.parse]
    cases parseFrom env 0 rest with
    | none => rfl
    | some last => exact congrArg some (List.append_assoc blocks more last).symm
  sublist := by
    rw [List.flatMap_append, contents_append]
    exact h.sublist.append h'.sublist
  whole := by
    rw [List.flatMap_append, contents_append, append_eq_append_iff_of_sublist h.sublist h'.sublist,
      h.whole, h'.whole, codeOutside_append, h.depth]
  shows := List.forall_mem_append.mpr ⟨h.shows, h'.shows⟩
  depth := by
    rw [run_append, h.depth, h'.depth]

theorem parsed_of_bodies {ts : List Token} {blocks : List Emitted}
    (hparse : ∀ rest, parseFrom env 0 (ts ++ rest) = (blocks ++ ·) <$> parseFrom env 0 rest)
    (hbodies : blocks.flatMap Emitted.bodies = contents env ts) (hout : CodeOutside env 0 ts)
    (hshows : ∀ e ∈ blocks, e.block.Shows e.bodies) (hdepth : run depthAfter 0 ts = 0) :
    Parsed env ts blocks where
  parse := hparse
  sublist := by rw [hbodies]
  whole := ⟨fun _ => hout, fun _ => hbodies⟩
  shows := hshows
  depth := hdepth

theorem single_bodies (type : BlockType) (body : Text) (depth : ℤ) :
    (single type body depth).flatMap Emitted.bodies = nonempty [body] := by
  cases body <;> rfl

theorem single_shows {type : BlockType} (htype : type = .heading ∨ type = .paragraph ∨ type = .code)
    (body : Text) (depth : ℤ) : ∀ e ∈ single type body depth, e.block.Shows e.bodies := by
  cases body with
  | nil => exact List.forall_mem_nil _
  | cons c body =>
    intro e he
    rw [List.mem_singleton.mp he]
    rcases htype with rfl | rfl | rfl <;> rfl

theorem map_nil_append (rest : List Token) :
    (([] : List Emitted) ++ ·) <$> parseFrom env 0 rest = parseFrom env 0 rest := by
  cases parseFrom env 0 rest <;> rfl

theorem parsed_passed {type : TokenType} {content : Text}
    (hparse : ∀ rest, parseFrom env 0 (⟨type, content⟩ :: rest) = parseFrom env 0 rest)
    (hinline : type ≠ .inline) (hcode : (Token.mk type content).isCode = false)
    (hdepth : depthAfter 0 ⟨type, content⟩ = 0) : Parsed env [⟨type, content⟩] [] := by
  have hbody : (Token.mk type content).body env = [] := by
    rw [Token.body, if_neg hinline, hcode]
    rfl
  refine parsed_of_bodies (fun rest => ?_) ?_ ?_ (List.forall_mem_nil _) hdepth
  · rw [map_nil_append]
    exact hparse rest
  · rw [contents, List.map_singleton, hbody]
    rfl
  · refine codeOutside_of_not_code (List.forall_mem_singleton.mpr ?_) 0
    rw [Token.code, hcode, Bool.false_and]

theorem parsed_leaf {t : Token} (ht : t.type.leaf = true) : ∃ blocks, Parsed env [t] blocks := by
  obtain ⟨type, content⟩ := t
  have hout : CodeOutside env 0 [⟨type, content⟩] := ⟨fun _ => rfl, trivial⟩
  cases type with
  | fence =>
    exact ⟨_, parsed_of_bodies (fun rest => rfl) (single_bodies .code _ 0) hout
      (single_shows (.inr (.inr rfl)) _ 0) rfl⟩
  | codeBlock =>
    exact ⟨_, parsed_of_bodies (fun rest => rfl) (single_bodies .code _ 0) hout
      (single_shows (.inr (.inr rfl)) _ 0) rfl⟩
  | hr => exact ⟨[], parsed_passed (fun rest => rfl) TokenType.noConfusion rfl rfl⟩
  | opens tag => cases ht
  | closes tag => cases ht
  | inline => cases ht

theorem parsed_text {tag : Tag} {content body content' : Text} (htag : tag.holdsText = true) :
    ∃ blocks, Parsed env [⟨.opens tag, content⟩, ⟨.inline, body⟩, ⟨.closes tag, content'⟩] blocks := by
  have hcontents : contents env [⟨.opens tag, content⟩, ⟨.inline, body⟩, ⟨.closes tag, content'⟩] =
      nonempty [env.strip body] := rfl
  have hcode : ∀ t ∈ [(⟨.opens tag, content⟩ : Token), ⟨.inline, body⟩, ⟨.closes tag, content'⟩],
      t.code env = false := List.forall_mem_cons.mpr ⟨rfl, List.forall_mem_cons.mpr ⟨rfl,
    List.forall_mem_singleton.mpr rfl⟩⟩
  have hdepth := Nested.run_depth (.text htag .nil :
    Nested [⟨.opens tag, content⟩, ⟨.inline, body⟩, ⟨.closes tag, content'⟩]) 0
  cases tag with
  | heading depth =>
    refine ⟨single .heading (env.strip body) depth, parsed_of_bodies (fun rest => ?_) ?_
      (codeOutside_of_not_code hcode 0) (single_shows (.inl rfl) _ _) hdepth⟩
    · rfl
    · rw [single_bodies, hcontents]
  | paragraph =>
    refine ⟨single .paragraph (env.strip body), parsed_of_bodies (fun rest => ?_) ?_
      (codeOutside_of_not_code hcode 0) (single_shows (.inr (.inl rfl)) _ _) hdepth⟩
    · rfl
    · rw [single_bodies, hcontents]
  | _ => cases htag

theorem emitList_bodies (ts : List Token) :
    (emitList env ts).flatMap Emitted.bodies = nonempty (inlines env ts) ∧
      ∀ e ∈ emitList env ts, e.block.Shows e.bodies := by
  unfold emitList
  cases hitems : nonempty (inlines env ts) with
  | nil => exact ⟨rfl, List.forall_mem_nil _⟩
  | cons item items =>
    refine ⟨List.append_nil _, fun e he => ?_⟩
    rw [List.mem_singleton.mp he]
    rfl

theorem emitQuote_bodies (ts : List Token) :
    (emitQuote env ts).flatMap Emitted.bodies = nonempty (inlines env ts) ∧
      ∀ e ∈ emitQuote env ts, e.block.Shows e.bodies := by
  unfold emitQuote
  cases hparts : inlines env ts with
  | nil => exact ⟨rfl, List.forall_mem_nil _⟩
  | cons part parts =>
    refine ⟨List.append_nil _, fun e he => ?_⟩
    rw [List.mem_singleton.mp he]
    exact ⟨part :: parts, rfl, rfl⟩

theorem emitTable_bodies {ts : List Token} (h : Rows ts) :
    (emitTable env ts).flatMap Emitted.bodies = nonempty (inlines env ts) ∧
      ∀ e ∈ emitTable env ts, e.block.Shows e.bodies := by
  obtain ⟨rows, current, hfold, hrows⟩ := foldl_rows env h [] []
  unfold emitTable
  rw [hfold, List.nil_append, ← hrows]
  cases rows with
  | nil => exact ⟨rfl, List.forall_mem_nil _⟩
  | cons row rows =>
    refine ⟨List.append_nil _, fun e he => ?_⟩
    rw [List.mem_singleton.mp he]
    exact ⟨row :: rows, rfl, rfl⟩

theorem contents_element {tag : Tag} {content content' : Text} (inner : List Token) :
    contents env (⟨.opens tag, content⟩ :: (inner ++ [⟨.closes tag, content'⟩])) =
      contents env inner := by
  rw [contents_cons, contents_append]
  have hopen : nonempty [(Token.mk (.opens tag) content).body env] = [] := rfl
  have hclose : contents env [⟨.closes tag, content'⟩] = [] := rfl
  rw [hopen, hclose, List.append_nil, List.nil_append]

theorem parsed_walked {tag : Tag} {content content' : Text} {inner : List Token}
    (emit : List Token → List Emitted) (htag : tag.walked = true) (hinner : Nested inner)
    (hparse : ∀ rest, parseFrom env 0 (⟨.opens tag, content⟩ :: rest) =
      (emit (inside tag 0 rest) ++ ·) <$> parseFrom env ((inside tag 0 rest).length + 1) rest)
    (hemit : (emit inner).flatMap Emitted.bodies = nonempty (inlines env inner) ∧
      ∀ e ∈ emit inner, e.block.Shows e.bodies) :
    Parsed env (⟨.opens tag, content⟩ :: (inner ++ [⟨.closes tag, content'⟩])) (emit inner) := by
  -- A list or a quote: its inline contents come out, and code inside does not.
  have hinlines := inlines_contents env inner
  refine ⟨fun rest => ?_, ?_, ?_, hemit.2, Nested.run_depth (.container (.inr htag) hinner .nil) 0⟩
  · have hinside : inside tag 0 (inner ++ ⟨.closes tag, content'⟩ :: rest) = inner := by
      rw [hinner.inside_append htag, inside_close, List.append_nil]
    rw [List.cons_append, List.append_assoc, List.singleton_append, hparse, hinside, parseFrom_span]
  · rw [contents_element, hemit.1]
    exact hinlines.1
  · rw [contents_element, hemit.1, hinlines.2, codeOutside_cons, codeOutside_append]
    have hdepth : depthAfter 0 ⟨.opens tag, content⟩ = 1 := by simp [depthAfter, htag]
    rw [hdepth, hinner.codeOutside_iff Nat.one_pos]
    constructor
    · exact fun hcode => ⟨fun _ => rfl, hcode, fun hclose =>
        absurd ((code_of_not_leaf rfl).symm.trans hclose) Bool.noConfusion, trivial⟩
    · exact fun hout => hout.2.1

theorem parsed_table {content content' : Text} {rows : List Token} (hrows : Rows rows) :
    Parsed env (⟨.opens .table, content⟩ :: (rows ++ [⟨.closes .table, content'⟩]))
      (emitTable env rows) := by
  have hcode : ∀ t ∈ rows, t.code env = false :=
    fun t ht => not_code_of_tabular (hrows.tabular t ht)
  refine parsed_of_bodies (fun rest => ?_) ?_ ?_ (emitTable_bodies hrows).2
    (Nested.run_depth (.table hrows .nil) 0)
  · have hopen : ∀ t ∈ rows, (decide (t.type ≠ .closes .table)) = true := by
      intro t ht
      have htabular := hrows.tabular t ht
      refine decide_eq_true fun heq => ?_
      rw [heq] at htabular
      cases htabular
    have hinside : insideTable (rows ++ ⟨.closes .table, content'⟩ :: rest) = rows := by
      rw [insideTable, List.takeWhile_append_of_pos hopen, List.takeWhile_cons_of_neg (by simp),
        List.append_nil]
    have hparse : ∀ rest, parseFrom env 0 (⟨.opens .table, content⟩ :: rest) =
        (emitTable env (insideTable rest) ++ ·) <$>
          parseFrom env ((insideTable rest).length + 1) rest := fun rest => rfl
    rw [List.cons_append, List.append_assoc, List.singleton_append, hparse, hinside, parseFrom_span]
  · rw [contents_element, (emitTable_bodies hrows).1, (inlines_contents env rows).2]
    exact hcode
  · exact codeOutside_of_not_code (List.forall_mem_cons.mpr ⟨code_of_not_leaf rfl,
      List.forall_mem_append.mpr ⟨hcode, List.forall_mem_singleton.mpr (code_of_not_leaf rfl)⟩⟩) 0

/-- The induction over a well-nested list. -/
theorem Nested.parsed (env : ChunkEnv) {ts : List Token} (h : Nested ts) : ∃ blocks, Parsed env ts blocks := by
  induction h with
  | nil =>
    exact ⟨[], fun rest => (map_nil_append rest).symm, .refl _, ⟨fun _ => trivial, fun _ => rfl⟩,
      List.forall_mem_nil _, rfl⟩
  | @leaf t ts ht h ih =>
    obtain ⟨blocks, hblocks⟩ := ih
    obtain ⟨first, hfirst⟩ := parsed_leaf ht
    exact ⟨first ++ blocks, hfirst.append hblocks⟩
  | @text tag content body content' ts htag h ih =>
    obtain ⟨blocks, hblocks⟩ := ih
    obtain ⟨first, hfirst⟩ := parsed_text htag
    exact ⟨first ++ blocks, hfirst.append hblocks⟩
  | @container tag content content' inner ts htag hinner h ihinner ih =>
    obtain ⟨blocks, hblocks⟩ := ih
    have hsplit : ⟨.opens tag, content⟩ :: (inner ++ ⟨.closes tag, content'⟩ :: ts) =
        (⟨.opens tag, content⟩ :: (inner ++ [⟨.closes tag, content'⟩])) ++ ts := by
      rw [List.cons_append, List.append_assoc]
      rfl
    have hfirst : ∃ first, Parsed env (⟨.opens tag, content⟩ :: (inner ++
        [⟨.closes tag, content'⟩])) first := by
      rcases htag with rfl | htag
      · obtain ⟨inside, hinside⟩ := ihinner
        have hopen : Parsed env [⟨.opens .listItem, content⟩] [] :=
          parsed_passed (fun rest => rfl) TokenType.noConfusion rfl rfl
        have hclose : Parsed env [⟨.closes .listItem, content'⟩] [] :=
          parsed_passed (fun rest => rfl) TokenType.noConfusion rfl rfl
        exact ⟨_, hopen.append (hinside.append hclose)⟩
      · cases tag with
        | bulletList =>
          exact ⟨_, parsed_walked (emitList env) htag hinner (fun rest => rfl) (emitList_bodies inner)⟩
        | orderedList =>
          exact ⟨_, parsed_walked (emitList env) htag hinner (fun rest => rfl) (emitList_bodies inner)⟩
        | blockquote =>
          exact ⟨_, parsed_walked (emitQuote env) htag hinner (fun rest => rfl) (emitQuote_bodies inner)⟩
        | _ => cases htag
    obtain ⟨first, hfirst⟩ := hfirst
    rw [hsplit]
    exact ⟨first ++ blocks, hfirst.append hblocks⟩
  | @table content content' rows ts hrows h ih =>
    obtain ⟨blocks, hblocks⟩ := ih
    have hsplit : ⟨.opens .table, content⟩ :: (rows ++ ⟨.closes .table, content'⟩ :: ts) =
        (⟨.opens .table, content⟩ :: (rows ++ [⟨.closes .table, content'⟩])) ++ ts := by
      rw [List.cons_append, List.append_assoc]
      rfl
    rw [hsplit]
    exact ⟨emitTable env rows ++ blocks, (parsed_table hrows).append hblocks⟩

/-- The parser keeps the contents of a well-nested list exactly when its code stands outside lists
and quotes. -/
theorem Nested.keepsTokens_iff {ts : List Token} (h : Nested ts) :
    KeepsTokens env ts ↔ CodeOutside env 0 ts := by
  obtain ⟨blocks, hblocks⟩ := h.parsed env
  have hparse : parseMarkdown env ts = some blocks := by
    have hrest := hblocks.parse []
    rw [List.append_nil] at hrest
    rw [parseMarkdown, hrest]
    exact congrArg some (List.append_nil blocks)
  rw [← hblocks.whole]
  constructor
  · rintro ⟨blocks', hparse', hbodies, -⟩
    obtain rfl := Option.some.inj (hparse'.symm.trans hparse)
    exact hbodies
  · exact fun hbodies => ⟨blocks, hparse, hbodies, hblocks.shows⟩

end Memclaw.Ingest

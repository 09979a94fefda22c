import TreeSchema.Proofs.Render.Emission

/-!
Reading a tree back from its text. A reader of parenthesized text that takes
blanks and line breaks for mere separators finds the same tokens in every
layout of a tree, and the tokens of a tree build that tree. So the text of a
tree determines it, whatever the width and the indentation.
-/

namespace TreeSchema.Render

/-- The characters that end a word. -/
def delimiters : List Char := [' ', '\n', '(', ')']

/-- Text that a reader takes for one word. -/
def IsWord (text : String) : Prop :=
  text ≠ "" ∧ ∀ c ∈ text.toList, c ∉ delimiters

-- Going through the characters of the text, not through all characters.
instance (text : String) : Decidable (IsWord text) :=
  have := List.decidableBAll (fun c => c ∉ delimiters) text.toList
  inferInstanceAs (Decidable (_ ∧ _))

/-- An opening parenthesis comes with the label that follows it. -/
inductive Token where
  | opening (label : String)
  | word (text : String)
  | closing
deriving DecidableEq, Repr

namespace Token

/-- The token that ends with the word read so far, if there is one. -/
def pending (opened : Bool) (word : List Char) : List Token :=
  if opened then [.opening (String.ofList word)]
  else if word.isEmpty then []
  else [.word (String.ofList word)]

/-- The tokens of a text. `opened` tells that the word read so far is a label. -/
def scan (opened : Bool) (word : List Char) : List Char → List Token
  | [] => pending opened word
  | '(' :: rest => pending opened word ++ scan true [] rest
  | ')' :: rest => pending opened word ++ .closing :: scan false [] rest
  | ' ' :: rest => pending opened word ++ scan false [] rest
  | '\n' :: rest => pending opened word ++ scan false [] rest
  | c :: rest => scan opened (word ++ [c]) rest

/-- The tree that tokens build. `siblings` are the trees finished at the
current depth, latest first; `frames` are the open nodes around them, innermost
first, each with the trees finished before it. -/
def build : List Token → (siblings : List Tree) → (frames : List (String × List Tree)) →
    Option Tree
  | [], [tree], [] => some tree
  | [], _, _ => none
  | .word text :: rest, siblings, frames => build rest (.leaf text :: siblings) frames
  | .opening label :: rest, siblings, frames => build rest [] ((label, siblings) :: frames)
  | .closing :: _, _, [] => none
  | .closing :: rest, siblings, (label, earlier) :: frames =>
      build rest (.node label siblings.reverse :: earlier) frames

end Token

/-- The tree written in a text, if there is exactly one. -/
def Tree.read? (text : String) : Option Tree :=
  Token.build (Token.scan false [] text.toList) [] []

namespace Tree

mutual

def tokens : Tree → List Token
  | .leaf text => [.word text]
  | .node label children => .opening label :: tokensOfAll children ++ [.closing]

def tokensOfAll : List Tree → List Token
  | [] => []
  | child :: rest => tokens child ++ tokensOfAll rest

end

/-- All labels and leaf texts are words. -/
def HasWords (tree : Tree) : Prop :=
  (∀ label ∈ tree.labels, IsWord label) ∧ ∀ text ∈ tree.leaves, IsWord text

instance (tree : Tree) : Decidable tree.HasWords :=
  inferInstanceAs (Decidable (_ ∧ _))

theorem hasWords_node {label : String} {children : List Tree} :
    (node label children).HasWords ↔
      IsWord label ∧ ∀ child ∈ children, child.HasWords := by
  simp only [HasWords, labels_node, leaves_node, List.mem_cons, List.mem_flatMap]
  constructor
  · rintro ⟨hlabels, hleaves⟩
    refine ⟨hlabels label (.inl rfl), fun child hchild => ⟨?_, ?_⟩⟩
    · exact fun inside hinside => hlabels inside (.inr ⟨child, hchild, hinside⟩)
    · exact fun text htext => hleaves text ⟨child, hchild, htext⟩
  · rintro ⟨hlabel, hchildren⟩
    constructor
    · rintro inside (rfl | ⟨child, hchild, hinside⟩)
      · exact hlabel
      · exact (hchildren child hchild).1 inside hinside
    · rintro text ⟨child, hchild, htext⟩
      exact (hchildren child hchild).2 text htext

mutual

/-- The tokens of a tree leave it finished next to its earlier siblings,
whatever stands around it. -/
theorem build_tokens : ∀ (tree : Tree) (rest : List Token) (siblings : List Tree)
    (frames : List (String × List Tree)),
    Token.build (tree.tokens ++ rest) siblings frames =
      Token.build rest (tree :: siblings) frames
  | .leaf text, rest, siblings, frames => rfl
  | .node label children, rest, siblings, frames => by
      simp only [tokens, List.cons_append, List.append_assoc, List.nil_append, Token.build]
      rw [build_tokensOfAll children (.closing :: rest) [] ((label, siblings) :: frames)]
      simp only [Token.build, List.append_nil, List.reverse_reverse]

theorem build_tokensOfAll : ∀ (children : List Tree) (rest : List Token)
    (siblings : List Tree) (frames : List (String × List Tree)),
    Token.build (tokensOfAll children ++ rest) siblings frames =
      Token.build rest (children.reverse ++ siblings) frames
  | [], rest, siblings, frames => rfl
  | child :: others, rest, siblings, frames => by
      rw [tokensOfAll, List.append_assoc, build_tokens child, build_tokensOfAll others,
        List.reverse_cons, List.append_assoc]
      rfl

end

end Tree

namespace Token

/-- Nothing that would go on with a word. -/
def Delimited (rest : List Char) : Prop :=
  ∀ c ∈ rest.head?, c ∈ delimiters

theorem scan_delimited {rest : List Char} (hrest : Delimited rest) (opened : Bool)
    (word : List Char) : scan opened word rest = pending opened word ++ scan false [] rest := by
  cases rest with
  | nil => simp [scan, pending]
  | cons c rest =>
      have hc : c ∈ delimiters := hrest c rfl
      simp only [delimiters, List.mem_cons, List.not_mem_nil, or_false] at hc
      rcases hc with rfl | rfl | rfl | rfl
      · simp [scan, pending]
      · simp [scan, pending]
      · simp [scan, pending]
      · simp [scan, pending]

theorem scan_letters {letters : List Char} (hletters : ∀ c ∈ letters, c ∉ delimiters)
    (opened : Bool) (word rest : List Char) :
    scan opened word (letters ++ rest) = scan opened (word ++ letters) rest := by
  induction letters generalizing word with
  | nil => rw [List.nil_append, List.append_nil]
  | cons c letters ih =>
      obtain ⟨hc, hothers⟩ := List.forall_mem_cons.mp hletters
      simp only [delimiters, List.mem_cons, List.not_mem_nil, or_false, not_or] at hc
      have hstep : scan opened word (c :: (letters ++ rest)) =
          scan opened (word ++ [c]) (letters ++ rest) := by
        simp [scan, hc]
      rw [List.cons_append, hstep, ih hothers, List.append_assoc]
      rfl

theorem scan_spaces (n : Nat) (rest : List Char) :
    scan false [] ((spaces n).toList ++ rest) = scan false [] rest := by
  rw [spaces, String.toList_ofList]
  induction n with
  | zero => rfl
  | succ n ih => exact ih

theorem scan_word {text : String} (htext : IsWord text) {rest : List Char}
    (hrest : Delimited rest) :
    scan false [] (text.toList ++ rest) = .word text :: scan false [] rest := by
  have hnonempty : text.toList ≠ [] := by simpa using htext.1
  rw [scan_letters htext.2, scan_delimited hrest]
  simp [pending, hnonempty]

theorem scan_label {label : String} (hlabel : IsWord label) {rest : List Char}
    (hrest : Delimited rest) :
    scan false [] ('(' :: (label.toList ++ rest)) = .opening label :: scan false [] rest := by
  have hopen : scan false [] ('(' :: (label.toList ++ rest)) =
      scan true [] (label.toList ++ rest) := rfl
  rw [hopen, scan_letters hlabel.2, scan_delimited hrest]
  simp [pending]

theorem scan_closing (rest : List Char) :
    scan false [] (')' :: rest) = .closing :: scan false [] rest := rfl

theorem scan_blank (rest : List Char) :
    scan false [] (' ' :: rest) = scan false [] rest := rfl

theorem scan_newline (rest : List Char) :
    scan false [] ('\n' :: rest) = scan false [] rest := rfl

theorem delimited_cons {c : Char} (hc : c ∈ delimiters) (rest : List Char) :
    Delimited (c :: rest) := by
  rintro _ ⟨⟩
  exact hc

theorem delimited_spaced (texts : List String) {rest : List Char} (hrest : Delimited rest) :
    Delimited ((spaced texts).toList ++ rest) := by
  cases texts with
  | nil => exact hrest
  | cons text others =>
      rw [spaced_cons, String.append_assoc, String.toList_append]
      exact delimited_cons (by decide) _

theorem delimited_inside (step indent : Nat) (laid : List Layout) {rest : List Char}
    (hrest : Delimited rest) : Delimited ((Layout.inside step indent laid).toList ++ rest) := by
  cases laid with
  | nil => exact hrest
  | cons child others =>
      rw [Layout.inside, String.append_assoc, String.append_assoc, String.toList_append]
      exact delimited_cons (by decide) _

end Token

open Token

namespace Tree

mutual

theorem scan_inlined : ∀ (tree : Tree) (rest : List Char), tree.HasWords → Delimited rest →
    scan false [] (tree.inlined.toList ++ rest) = tree.tokens ++ scan false [] rest
  | .leaf text, rest, hwords, hrest => by
      exact scan_word (hwords.2 text List.mem_cons_self) hrest
  | .node label children, rest, hwords, hrest => by
      obtain ⟨hlabel, hchildren⟩ := hasWords_node.mp hwords
      have hclosing : Delimited (')' :: rest) := delimited_cons (by decide) rest
      have htext : (node label children).inlined.toList ++ rest =
          '(' :: (label.toList ++ ((spaced (inlinedAll children)).toList ++ ')' :: rest)) := by
        simp [inlined, joined]
      rw [htext, scan_label hlabel (delimited_spaced _ hclosing),
        scan_spaced children _ hchildren hclosing, scan_closing, tokens]
      simp

theorem scan_spaced : ∀ (children : List Tree) (rest : List Char),
    (∀ child ∈ children, child.HasWords) → Delimited rest →
    scan false [] ((spaced (inlinedAll children)).toList ++ rest) =
      tokensOfAll children ++ scan false [] rest
  | [], rest, _, _ => rfl
  | child :: others, rest, hwords, hrest => by
      obtain ⟨hchild, hothers⟩ := List.forall_mem_cons.mp hwords
      have htext : (spaced (inlinedAll (child :: others))).toList ++ rest =
          ' ' :: (child.inlined.toList ++ ((spaced (inlinedAll others)).toList ++ rest)) := by
        simp [inlinedAll]
      rw [htext, scan_blank, scan_inlined child _ hchild (delimited_spaced _ hrest),
        scan_spaced others rest hothers hrest, tokensOfAll, List.append_assoc]

end

end Tree

namespace Layout

mutual

/-- Every layout of a tree has the tokens of the tree. -/
theorem scan_body (step : Nat) : ∀ (indent : Nat) (layout : Layout) (tree : Tree)
    (rest : List Char), layout.Shows tree → tree.HasWords → Delimited rest →
    scan false [] ((layout.body step indent).toList ++ rest) =
      tree.tokens ++ scan false [] rest
  | indent, .line text, tree, rest, hshows, hwords, hrest => by
      rw [body, show text = tree.inlined from hshows]
      exact tree.scan_inlined rest hwords hrest
  | indent, .block label laid, .leaf text, rest, hshows, _, _ => hshows.elim
  | indent, .block label laid, .node name children, rest, hshows, hwords, hrest => by
      obtain ⟨rfl, -, hall⟩ := hshows
      obtain ⟨hlabel, hchildren⟩ := Tree.hasWords_node.mp hwords
      have hbreak : Delimited ('\n' :: ((spaces indent).toList ++ ')' :: rest)) :=
        delimited_cons (by decide) _
      have htext : ((Layout.block label laid).body step indent).toList ++ rest =
          '(' :: (label.toList ++ ((inside step (indent + step) laid).toList ++
            '\n' :: ((spaces indent).toList ++ ')' :: rest))) := by
        simp [body]
      rw [htext, scan_label hlabel (delimited_inside _ _ _ hbreak),
        scan_inside step _ laid children _ hall hchildren hbreak, scan_newline, scan_spaces,
        scan_closing, Tree.tokens]
      simp

theorem scan_inside (step : Nat) : ∀ (indent : Nat) (laid : List Layout)
    (children : List Tree) (rest : List Char), ShowsAll laid children →
    (∀ child ∈ children, child.HasWords) → Delimited rest →
    scan false [] ((inside step indent laid).toList ++ rest) =
      Tree.tokensOfAll children ++ scan false [] rest
  | indent, [], [], rest, _, _, _ => rfl
  | indent, [], _ :: _, rest, hall, _, _ => hall.elim
  | indent, _ :: _, [], rest, hall, _, _ => hall.elim
  | indent, first :: laid, child :: others, rest, hall, hwords, hrest => by
      obtain ⟨hchild, hothers⟩ := List.forall_mem_cons.mp hwords
      have htext : (inside step indent (first :: laid)).toList ++ rest =
          '\n' :: ((spaces indent).toList ++ ((first.body step indent).toList ++
            ((inside step indent laid).toList ++ rest))) := by
        simp [inside]
      rw [htext, scan_newline, scan_spaces,
        scan_body step indent first child _ hall.1 hchild (delimited_inside _ _ _ hrest),
        scan_inside step indent laid others rest hall.2 hothers hrest, Tree.tokensOfAll,
        List.append_assoc]

end

end Layout

namespace Tree

theorem read?_body {layout : Layout} {tree : Tree} (hshows : layout.Shows tree)
    (hwords : tree.HasWords) (step : Nat) : read? (layout.body step 0) = some tree := by
  have htokens := Layout.scan_body step 0 layout tree [] hshows hwords (by rintro _ ⟨⟩)
  rw [List.append_nil] at htokens
  rw [read?, htokens, build_tokens]
  rfl

/-- One reader takes the text of a tree of words back to the tree, from every
style, so trees with the same text in any two styles are the same. -/
theorem read?_render :
    (∀ (tree : Tree) (style : Style), tree.HasWords → read? (tree.render style) = some tree) ∧
      ∀ (left right : Tree) (leftStyle rightStyle : Style), left.HasWords → right.HasWords →
        left.render leftStyle = right.render rightStyle → left = right := by
  have hread (tree : Tree) (style : Style) (hwords : tree.HasWords) :
      read? (tree.render style) = some tree := by
    rw [render_eq_body]
    exact read?_body (tree.layoutAt_shows style 0) hwords style.indent
  refine ⟨hread, ?_⟩
  intro left right leftStyle rightStyle hleft hright hsame
  have hreads := hread left leftStyle hleft
  rw [hsame, hread right rightStyle hright] at hreads
  exact (Option.some.inj hreads).symm

/-- Without width or indentation, next to leaves and childless nodes. -/
theorem read?_render_unindented :
    let tree := node "op" [node "add" [leaf "1", node "e" []], leaf "x"]
    read? (tree.render { width := 0, indent := 0 }) = some tree :=
  read?_render.1 _ _ (by decide)

end Tree

end TreeSchema.Render

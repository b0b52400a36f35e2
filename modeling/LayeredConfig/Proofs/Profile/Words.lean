import LayeredConfig.Profile.Expression
import Mathlib.Data.List.Chain
import Mathlib.Data.List.TakeWhile

/-!
# The words of a text

An expression is written with five symbols and with names. Blank characters may stand between them,
and they have to where two names would touch otherwise: a name goes on as long as it can. A text
spells exactly one list of words, and a list of words can be written with any gaps, provided that no
two names follow each other.

## Main definitions

* `Token.isName`: a text that may stand as a name.
* `Spells`: a text spells a list of words.
* `Token.write`: a list of words, written with the given gaps.

## Main results

* `spells_iff`: the words that a text spells.
* `spells_write`: words that are written spell those words.
-/

namespace LayeredConfig

namespace Token

/-- The text may stand as a name: it is not empty and holds nothing but the characters of names. -/
def isName (text : String) : Bool :=
  !text.toList.isEmpty && text.toList.all isNameChar

/-- The word is a name. -/
def isNamed : Token → Bool
  | name _ => true
  | _ => false

/-- Two words that may follow each other without a gap. -/
def Apart (word next : Token) : Prop :=
  word.isNamed = false ∨ next.isNamed = false

/-- A word as it is written. -/
def written : Token → List Char
  | leftParen => ['(']
  | rightParen => [')']
  | ampersand => ['&']
  | bar => ['|']
  | bang => ['!']
  | name text => text.toList

/-- Words with gaps before, between and after them. -/
def write (gap : ℕ → List Char) : List Token → List Char
  | [] => gap 0
  | word :: words => gap 0 ++ (word.written ++ write (fun i => gap (i + 1)) words)

end Token

/-- The text spells the words. A name ends where a character follows that no name may hold, or where
the text ends. -/
inductive Spells : List Char → List Token → Prop
  | nil : Spells [] []
  | blank {c : Char} {text : List Char} {words : List Token} (hblank : Text.isBlank c = true)
      (h : Spells text words) : Spells (c :: text) words
  | symbol {c : Char} {word : Token} {text : List Char} {words : List Token}
      (hsymbol : Token.symbol? c = some word) (h : Spells text words) :
      Spells (c :: text) (word :: words)
  | name {name : String} {text : List Char} {words : List Token}
      (hname : Token.isName name = true) (hends : ∀ c ∈ text.head?, Token.isNameChar c = false)
      (h : Spells text words) : Spells (name.toList ++ text) (.name name :: words)

variable {c : Char} {text : List Char} {word : Token} {words : List Token}

/-! ### What a text spells -/

namespace Token

theorem symbol?_of_isBlank (h : Text.isBlank c = true) : symbol? c = none := by
  unfold symbol?
  split <;> first | rfl | exact absurd h (by decide)

theorem isNameChar_of_symbol? (h : symbol? c = some word) : isNameChar c = false := by
  simp [isNameChar, h]

theorem isNameChar_of_isBlank (h : Text.isBlank c = true) : isNameChar c = false := by
  simp [isNameChar, h]

theorem isNameChar_iff : isNameChar c = true ↔ symbol? c = none ∧ Text.isBlank c = false := by
  simp [isNameChar]

theorem isName_iff {name : String} : isName name = true ↔
    name.toList ≠ [] ∧ ∀ c ∈ name.toList, isNameChar c = true := by
  simp [isName]

theorem symbol?_ne_name {name : String} : symbol? c ≠ some (.name name) := by
  unfold symbol?
  split <;> simp

theorem exists_symbol (h : word.isNamed = false) :
    ∃ c, word.written = [c] ∧ symbol? c = some word := by
  cases word with
  | leftParen => exact ⟨'(', rfl, rfl⟩
  | rightParen => exact ⟨')', rfl, rfl⟩
  | ampersand => exact ⟨'&', rfl, rfl⟩
  | bar => exact ⟨'|', rfl, rfl⟩
  | bang => exact ⟨'!', rfl, rfl⟩
  | name text => cases h

theorem exists_name (h : word.isNamed = true) : ∃ name, word = .name name := by
  cases word with
  | name text => exact ⟨text, rfl⟩
  | _ => cases h

end Token

/-- A text spells the words that are read from it. -/
theorem spells_tokens (text : List Char) : Spells text (tokens text) := by
  fun_induction tokens text with
  | case1 => exact .nil
  | case2 c text word hsymbol ih => exact .symbol hsymbol ih
  | case3 c text hsymbol hblank ih => exact .blank hblank ih
  | case4 c text hsymbol hblank ih =>
    let name := String.ofList (c :: text.takeWhile Token.isNameChar)
    have hc : Token.isNameChar c = true := Token.isNameChar_iff.mpr ⟨hsymbol, by simpa using hblank⟩
    have hname : Token.isName name = true := by
      rw [Token.isName_iff, String.toList_ofList]
      exact ⟨List.cons_ne_nil _ _, List.forall_mem_cons.mpr ⟨hc, fun _ => List.mem_takeWhile_imp⟩⟩
    have hends : ∀ d ∈ (text.dropWhile Token.isNameChar).head?, Token.isNameChar d = false := by
      intro d hd
      have hstop := List.head?_dropWhile_not Token.isNameChar text
      rwa [Option.mem_def.mp hd] at hstop
    have hsplit : c :: text = name.toList ++ text.dropWhile Token.isNameChar := by
      rw [String.toList_ofList, List.cons_append, List.takeWhile_append_dropWhile]
    rw [hsplit]
    exact .name hname hends ih

/-- No other words are spelled by the text. -/
theorem Spells.tokens_eq (h : Spells text words) : tokens text = words := by
  induction h with
  | nil => simp [tokens]
  | blank hblank h ih => simp [tokens, Token.symbol?_of_isBlank hblank, hblank, ih]
  | symbol hsymbol h ih => simp [tokens, hsymbol, ih]
  | @name name text words hname hends h ih =>
    obtain ⟨hsome, hchars⟩ := Token.isName_iff.mp hname
    obtain ⟨c, rest, hsplit⟩ := List.exists_cons_of_ne_nil hsome
    rw [hsplit] at hchars
    obtain ⟨hc, hrest⟩ := List.forall_mem_cons.mp hchars
    obtain ⟨hsymbol, hblank⟩ := Token.isNameChar_iff.mp hc
    have htake : text.takeWhile Token.isNameChar = [] := by
      cases text with
      | nil => rfl
      | cons d text => exact List.takeWhile_cons_of_neg (by simp [hends d rfl])
    have hdrop : text.dropWhile Token.isNameChar = text := by
      cases text with
      | nil => rfl
      | cons d text => exact List.dropWhile_cons_of_neg (by simp [hends d rfl])
    have hname : String.ofList (c :: rest) = name := by rw [← hsplit, String.ofList_toList]
    rw [hsplit, List.cons_append, tokens, hsymbol]
    simp only [hblank, List.takeWhile_append_of_pos hrest, List.dropWhile_append_of_pos hrest,
      htake, hdrop, List.append_nil, ih, hname, Bool.false_eq_true, if_false]

theorem spells_iff : Spells text words ↔ tokens text = words :=
  ⟨Spells.tokens_eq, fun h => h ▸ spells_tokens text⟩

/-- The names that a text spells may stand as names. -/
theorem Spells.isName_of_mem {name : String} (h : Spells text words) (hmem : .name name ∈ words) :
    Token.isName name = true := by
  induction h with
  | nil => cases hmem
  | blank hblank h ih => exact ih hmem
  | symbol hsymbol h ih =>
    refine ih ((List.mem_cons.mp hmem).resolve_left ?_)
    rintro rfl
    exact Token.symbol?_ne_name hsymbol
  | name hname hends h ih =>
    rcases List.mem_cons.mp hmem with heq | hmem
    · cases heq
      exact hname
    · exact ih hmem

/-! ### Writing words -/

variable {gap : ℕ → List Char}

theorem Spells.append_blank {blanks : List Char} (hblanks : ∀ c ∈ blanks, Text.isBlank c = true)
    (h : Spells text words) : Spells (blanks ++ text) words := by
  induction blanks with
  | nil => exact h
  | cons c blanks ih =>
    obtain ⟨hc, hblanks⟩ := List.forall_mem_cons.mp hblanks
    exact .blank hc (ih hblanks)

/-- What is written begins with no character of a name where the first word is none. -/
private theorem head?_write (hgap : ∀ i, ∀ c ∈ gap i, Text.isBlank c = true)
    (hwords : ∀ word ∈ words.head?, word.isNamed = false) :
    ∀ c ∈ (Token.write gap words).head?, Token.isNameChar c = false := by
  intro c hc
  cases words with
  | nil => exact Token.isNameChar_of_isBlank (hgap 0 c (List.mem_of_mem_head? hc))
  | cons word words =>
    obtain ⟨d, hwritten, hsymbol⟩ := Token.exists_symbol (hwords word rfl)
    rw [Token.write, hwritten] at hc
    cases hblanks : gap 0 with
    | nil =>
      rw [hblanks] at hc
      cases hc
      exact Token.isNameChar_of_symbol? hsymbol
    | cons blank blanks =>
      rw [hblanks] at hc
      cases hc
      exact Token.isNameChar_of_isBlank (hgap 0 c (hblanks ▸ List.mem_cons_self))

/-- Words that are written with blanks between them are spelled by what is written, provided that no
two names follow each other. -/
theorem spells_write (hgap : ∀ i, ∀ c ∈ gap i, Text.isBlank c = true)
    (hnames : ∀ name, .name name ∈ words → Token.isName name = true)
    (hapart : words.IsChain Token.Apart) : Spells (Token.write gap words) words := by
  induction words generalizing gap with
  | nil =>
    rw [Token.write, ← List.append_nil (gap 0)]
    exact Spells.nil.append_blank (hgap 0)
  | cons word words ih =>
    obtain ⟨hnext, hapart⟩ := List.isChain_cons.mp hapart
    have hlater (i : ℕ) : ∀ c ∈ gap (i + 1), Text.isBlank c = true := hgap (i + 1)
    have ih := ih hlater (fun name hname => hnames name (List.mem_cons_of_mem _ hname)) hapart
    rw [Token.write]
    refine Spells.append_blank (hgap 0) ?_
    cases hnamed : word.isNamed with
    | false =>
      obtain ⟨c, hwritten, hsymbol⟩ := Token.exists_symbol hnamed
      rw [hwritten, List.singleton_append]
      exact .symbol hsymbol ih
    | true =>
      obtain ⟨name, rfl⟩ := Token.exists_name hnamed
      refine .name (hnames name List.mem_cons_self) (head?_write hlater fun next hmem => ?_) ih
      exact (hnext next hmem).resolve_left (by simp [hnamed])

end LayeredConfig

import TemporalMonitor.Dot

/-! Labels stay between their quotes. A quoted text is read from the left, and a backslash takes the
character after it. No character of a name or a literal is then taken for the end of the text, and
what is read is the name, with the literals on a line of their own. -/

namespace TemporalMonitor.Dot

/-- A character by itself, one that a backslash has taken, or a backslash with nothing left to
take. -/
inductive Token
  | plain (c : Char)
  | escaped (c : Char)
  | cut
deriving DecidableEq

def tokens : List Char → List Token
  | [] => []
  | ['\\'] => [.cut]
  | '\\' :: c :: l => .escaped c :: tokens l
  | c :: l => .plain c :: tokens l

/-- No quote stands by itself, and no backslash at the end is left to take the closing quote. -/
structure Enclosed (s : String) : Prop where
  quote_not_mem : Token.plain '"' ∉ tokens s.toList
  cut_not_mem : Token.cut ∉ tokens s.toList

/-- What a character stands for after a backslash. -/
abbrev Code := Char → Option Char

def marks : Code := fun c =>
  if c = '\\' ∨ c = '"' then some c else none

def marksAndBreaks : Code := fun c =>
  if c = 'n' then some '\n' else marks c

def Token.value (code : Code) : Token → Option Char
  | .plain c => some c
  | .escaped c => code c
  | .cut => none

def decode (code : Code) (s : String) : Option String :=
  ((tokens s.toList).mapM (Token.value code)).map String.ofList

/-- Puts a text in the place of every occurrence of a character. -/
def replaceEach (c : Char) (text : String) (s : String) : String :=
  String.ofList (s.toList.flatMap fun d => if d = c then text.toList else [d])

def tokenOf (c : Char) : Token :=
  if c = '\\' ∨ c = '"' then .escaped c else .plain c

theorem tokens_escaped (c : Char) (l : List Char) :
    tokens ('\\' :: c :: l) = .escaped c :: tokens l := by
  simp [tokens]

theorem tokens_plain {c : Char} (h : c ≠ '\\') (l : List Char) :
    tokens (c :: l) = .plain c :: tokens l := by
  simp [tokens, h]

theorem tokens_escapeChar (c : Char) (r : List Char) :
    tokens (escapeChar c ++ r) = tokenOf c :: tokens r := by
  by_cases h : c = '\\' ∨ c = '"'
  · simp [escapeChar, tokenOf, h, tokens_escaped]
  · have hc : c ≠ '\\' := fun e => h (.inl e)
    simp [escapeChar, tokenOf, h, tokens_plain hc]

/-- Whatever follows escaped text, the seam is not inside an escape. -/
theorem tokens_escape_append (s : String) (r : List Char) :
    tokens ((escape s).toList ++ r) = s.toList.map tokenOf ++ tokens r := by
  rw [escape, String.toList_ofList]
  induction s.toList with
  | nil => rfl
  | cons c l ih =>
    rw [List.flatMap_cons, List.append_assoc, tokens_escapeChar, ih, List.map_cons, List.cons_append]

theorem tokens_escape (s : String) : tokens (escape s).toList = s.toList.map tokenOf := by
  simpa [tokens] using tokens_escape_append s []

theorem tokenOf_ne_quote (c : Char) : tokenOf c ≠ .plain '"' := by
  grind [tokenOf]

theorem tokenOf_ne_cut (c : Char) : tokenOf c ≠ .cut := by
  grind [tokenOf]

theorem enclosed_escape (s : String) : Enclosed (escape s) where
  quote_not_mem := by simp [tokens_escape, tokenOf_ne_quote]
  cut_not_mem := by simp [tokens_escape, tokenOf_ne_cut]

/-- A code that reads back the two marks that are escaped. -/
def Code.Unescapes (code : Code) : Prop :=
  code '\\' = some '\\' ∧ code '"' = some '"'

theorem marks_unescapes : marks.Unescapes :=
  ⟨rfl, rfl⟩

theorem marksAndBreaks_unescapes : marksAndBreaks.Unescapes :=
  ⟨rfl, rfl⟩

theorem Code.Unescapes.value_tokenOf {code : Code} (h : code.Unescapes) (c : Char) :
    (tokenOf c).value code = some c := by
  by_cases hc : c = '\\' ∨ c = '"'
  · obtain rfl | rfl := hc
    · exact h.1
    · exact h.2
  · simp [tokenOf, hc, Token.value]

theorem Code.Unescapes.mapM_tokenOf {code : Code} (h : code.Unescapes) (l : List Char) :
    (l.map tokenOf).mapM (Token.value code) = some l := by
  induction l with
  | nil => rfl
  | cons c l ih => simp [h.value_tokenOf, ih]

theorem Code.Unescapes.decode_escape {code : Code} (h : code.Unescapes) (s : String) :
    decode code (escape s) = some s := by
  simp [decode, tokens_escape, h.mapM_tokenOf]

theorem escape_append (s t : String) : escape (s ++ t) = escape s ++ escape t := by
  simp [escape]

/-- Escaping leaves the separators between joined texts alone. -/
theorem joined_map_escape (l : List String) : joined (l.map escape) = escape (joined l) := by
  induction l with
  | nil => rfl
  | cons s l ih =>
    cases l with
    | nil => simp [joined]
    | cons t l =>
      have hs : escape ", " = ", " := rfl
      simp only [joined, List.map_cons] at ih
      simp only [joined, List.map_cons, String.intercalate_cons_cons, escape_append, hs, ih]

/-- Doubling the backslashes first leaves the ones that are put before quotes alone. -/
theorem escape_eq_replaceEach (s : String) :
    escape s = replaceEach '"' "\\\"" (replaceEach '\\' "\\\\" s) := by
  simp only [escape, replaceEach, String.toList_ofList, List.flatMap_assoc]
  congr 2
  funext c
  by_cases hb : c = '\\'
  · subst hb
    rfl
  · by_cases hq : c = '"'
    · subst hq
      rfl
    · simp [escapeChar, hb, hq]

/-- The name ends with its last character, and the line break is read as such whatever stands on
either side of it. -/
theorem tokens_label {n : Nat} (style : Style) (s : State n) :
    tokens (label style s).toList = s.name.text.toList.map tokenOf ++
      if style.showLiterals = true ∧ s.literals ≠ [] then
        .escaped 'n' :: (joined s.literals).toList.map tokenOf
      else [] := by
  by_cases h : style.showLiterals = true ∧ s.literals ≠ []
  · have hl : label style s = escape s.name.text ++ ("\\n" ++ escape (joined s.literals)) := by
      simp [label, h, joined_map_escape]
    rw [hl, String.toList_append, String.toList_append, tokens_escape_append, if_pos h]
    have hn : "\\n".toList = ['\\', 'n'] := rfl
    rw [hn, List.cons_append, List.cons_append, List.nil_append, tokens_escaped, tokens_escape]
  · have hl : label style s = escape s.name.text := by
      simp_all [label]
    rw [hl, tokens_escape, if_neg h, List.append_nil]

theorem literals_ne_nil {n : Nat} (s : State n) :
    s.literals ≠ [] ↔ s.propositions ≠ [] ∨ s.negated ≠ [] := by
  rw [ne_eq, State.literals, List.append_eq_nil_iff, Classical.not_and_iff_not_or_not]
  simp

theorem enclosed_label {n : Nat} (style : Style) (s : State n) : Enclosed (label style s) where
  quote_not_mem := by
    rw [tokens_label]
    split <;> simp [tokenOf_ne_quote]
  cut_not_mem := by
    rw [tokens_label]
    split <;> simp [tokenOf_ne_cut]

theorem decode_label {n : Nat} (style : Style) (s : State n) :
    decode marksAndBreaks (label style s) = some (s.name.text ++
      if style.showLiterals = true ∧ s.literals ≠ [] then "\n" ++ joined s.literals else "") := by
  have hn : (Token.escaped 'n').value marksAndBreaks = some '\n' := rfl
  have hm := marksAndBreaks_unescapes.mapM_tokenOf
  rw [decode, tokens_label]
  split
  · simp [List.mapM_append, hm, hn]
  · simp [hm]

/-- Any text comes back from its escaped form, and any label is read as the name of its state and,
where literals are shown and there are some, the literals on a second line. -/
theorem labels_stay_quoted :
    (∀ s : String, Enclosed (escape s) ∧ decode marks (escape s) = some s ∧
      escape s = replaceEach '"' "\\\"" (replaceEach '\\' "\\\\" s)) ∧
    ∀ (n : Nat) (style : Style) (s : State n), Enclosed (label style s) ∧
      decode marksAndBreaks (label style s) = some (s.name.text ++
        if style.showLiterals = true ∧ (s.propositions ≠ [] ∨ s.negated ≠ []) then
          "\n" ++ ", ".intercalate (s.propositions.map Proposition.text ++
            s.negated.map fun p => "!" ++ p.text)
        else "") := by
  refine ⟨fun s => ⟨enclosed_escape s, marks_unescapes.decode_escape s, escape_eq_replaceEach s⟩,
    fun _ style s => ⟨enclosed_label style s, ?_⟩⟩
  simp only [decode_label, literals_ne_nil]
  rfl

end TemporalMonitor.Dot

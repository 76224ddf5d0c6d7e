import TemporalMonitor.Formula

/-! The text of a formula can be read in one way only. Read from the left, a text is a word followed
by a parenthesis, or by whatever stands around it: so as long as the texts of propositions are single
words, the first word and what follows it tell which connective is at hand and where its first operand
ends. Propositions may have the names of connectives. -/

namespace TemporalMonitor

inductive Unary
  | not
  | next
deriving DecidableEq

inductive Binary
  | and
  | or
  | until
  | release
deriving DecidableEq

/-- A formula of which only the texts of its propositions are known. -/
inductive Outline
  | prop (text : String)
  | unary (op : Unary) (a : Outline)
  | binary (op : Binary) (a b : Outline)
deriving DecidableEq

def Formula.outline : Formula → Outline
  | .prop p => .prop p.text
  | .not a => .unary .not a.outline
  | .next a => .unary .next a.outline
  | .and a b => .binary .and a.outline b.outline
  | .or a b => .binary .or a.outline b.outline
  | .until a b => .binary .until a.outline b.outline
  | .release a b => .binary .release a.outline b.outline

def Unary.name : Unary → String
  | .not => "Not"
  | .next => "Next"

def Binary.name : Binary → String
  | .and => "And"
  | .or => "Or"
  | .until => "Until"
  | .release => "Release"

def Outline.letters : Outline → List Char
  | .prop text => text.toList
  | .unary op a => op.name.toList ++ '(' :: (a.letters ++ [')'])
  | .binary op a b => '(' :: (a.letters ++ ' ' :: (op.name.toList ++ ' ' :: (b.letters ++ [')'])))

def Outline.texts : Outline → List String
  | .prop text => [text]
  | .unary _ a => a.texts
  | .binary _ a b => a.texts ++ b.texts

def inWord (c : Char) : Bool :=
  c ≠ '(' && c ≠ ')' && c ≠ ' '

/-- A single word: no parenthesis and no space. -/
def IsWord (w : List Char) : Prop :=
  ∀ c ∈ w, inWord c = true

/-- A word does not go on here. -/
def Breaks (r : List Char) : Prop :=
  ∀ c ∈ r.head?, inWord c = false

/-- What can stand after an outline. -/
def Closes (r : List Char) : Prop :=
  ∀ c ∈ r.head?, c = ')' ∨ c = ' '

theorem Formula.toList_text (f : Formula) : f.text.toList = f.outline.letters := by
  induction f with
  | prop p => rfl
  | not a ih | next a ih => simp [text, outline, Outline.letters, Unary.name, ih]
  | and a b iha ihb | or a b iha ihb | «until» a b iha ihb | release a b iha ihb =>
    simp [text, outline, Outline.letters, Binary.name, iha, ihb]

theorem Formula.texts_outline (f : Formula) :
    f.outline.texts = f.propositions.map Proposition.text := by
  induction f <;> simp [outline, Outline.texts, propositions, *]

theorem Unary.isWord_name (op : Unary) : IsWord op.name.toList := by
  cases op <;> simp [IsWord, inWord, name]

theorem Unary.name_injective {op op' : Unary} (h : op.name.toList = op'.name.toList) : op = op' := by
  cases op <;> cases op' <;> simp_all [name]

theorem Binary.isWord_name (op : Binary) : IsWord op.name.toList := by
  cases op <;> simp [IsWord, inWord, name]

theorem Binary.name_injective {op op' : Binary} (h : op.name.toList = op'.name.toList) :
    op = op' := by
  cases op <;> cases op' <;> simp_all [name]

theorem isWord_nil : IsWord [] :=
  fun _ hc => absurd hc List.not_mem_nil

theorem breaks_open (r : List Char) : Breaks ('(' :: r) := by
  simp [Breaks, inWord]

theorem breaks_space (r : List Char) : Breaks (' ' :: r) := by
  simp [Breaks, inWord]

theorem closes_paren (r : List Char) : Closes (')' :: r) := by
  simp [Closes]

theorem closes_space (r : List Char) : Closes (' ' :: r) := by
  simp [Closes]

section

variable {w w' r r' : List Char}

theorem Closes.breaks (h : Closes r) : Breaks r := by
  intro c hc
  rcases h c hc with rfl | rfl <;> rfl

theorem takeWhile_word (hw : IsWord w) (hr : Breaks r) : (w ++ r).takeWhile inWord = w := by
  rw [List.takeWhile_append_of_pos hw]
  cases r with
  | nil => simp
  | cons c r => simp [hr c rfl]

theorem word_append_inj (hw : IsWord w) (hw' : IsWord w') (hr : Breaks r) (hr' : Breaks r')
    (h : w ++ r = w' ++ r') : w = w' ∧ r = r' := by
  have hword := congrArg (List.takeWhile inWord) h
  rw [takeWhile_word hw hr, takeWhile_word hw' hr'] at hword
  subst hword
  exact ⟨rfl, List.append_cancel_left h⟩

/-- After the word of a proposition no parenthesis opens. -/
theorem word_append_ne_open (hw : IsWord w) (hw' : IsWord w') (hr : Closes r) :
    w ++ r ≠ w' ++ '(' :: r' := by
  intro h
  obtain ⟨_, rfl⟩ := word_append_inj hw hw' hr.breaks (breaks_open r') h
  simp [Closes] at hr

theorem Outline.letters_unary_append (op : Unary) (a : Outline) (r : List Char) :
    (unary op a).letters ++ r = op.name.toList ++ '(' :: (a.letters ++ ')' :: r) := by
  simp [letters]

theorem Outline.letters_binary_append (op : Binary) (a b : Outline) (r : List Char) :
    (binary op a b).letters ++ r =
      '(' :: (a.letters ++ ' ' :: (op.name.toList ++ ' ' :: (b.letters ++ ')' :: r))) := by
  simp [letters]

/-- The letters of an outline, and where it ends in a longer text, determine it. -/
theorem Outline.letters_append_inj {o o' : Outline} (ho : ∀ s ∈ o.texts, IsWord s.toList)
    (ho' : ∀ s ∈ o'.texts, IsWord s.toList) (hr : Closes r) (hr' : Closes r')
    (h : o.letters ++ r = o'.letters ++ r') : o = o' ∧ r = r' := by
  induction o generalizing o' r r' with
  | prop text =>
    have hw : IsWord text.toList := ho text (by simp [texts])
    cases o' with
    | prop text' =>
      have hw' : IsWord text'.toList := ho' text' (by simp [texts])
      obtain ⟨ht, hrest⟩ := word_append_inj hw hw' hr.breaks hr'.breaks h
      exact ⟨congrArg Outline.prop (String.toList_inj.1 ht), hrest⟩
    | unary op' a' =>
      rw [letters_unary_append] at h
      exact absurd h (word_append_ne_open hw op'.isWord_name hr)
    | binary op' a' b' =>
      rw [letters_binary_append] at h
      exact absurd h (word_append_ne_open hw isWord_nil hr)
  | unary op a ih =>
    rw [letters_unary_append] at h
    cases o' with
    | prop text' =>
      have hw' : IsWord text'.toList := ho' text' (by simp [texts])
      exact absurd h.symm (word_append_ne_open hw' op.isWord_name hr')
    | unary op' a' =>
      rw [letters_unary_append] at h
      obtain ⟨hop, hparen⟩ := word_append_inj op.isWord_name op'.isWord_name (breaks_open _)
        (breaks_open _) h
      have hwords : ∀ s ∈ a'.texts, IsWord s.toList := ho'
      obtain ⟨ha, hrest⟩ := ih ho hwords (closes_paren r) (closes_paren r') (List.cons.inj hparen).2
      exact ⟨by rw [Unary.name_injective hop, ha], (List.cons.inj hrest).2⟩
    | binary op' a' b' =>
      rw [letters_binary_append] at h
      have hname := (word_append_inj op.isWord_name isWord_nil (breaks_open _) (breaks_open _) h).1
      cases op <;> simp [Unary.name] at hname
  | binary op a b iha ihb =>
    rw [letters_binary_append] at h
    cases o' with
    | prop text' =>
      have hw' : IsWord text'.toList := ho' text' (by simp [texts])
      exact absurd h.symm (word_append_ne_open hw' isWord_nil hr')
    | unary op' a' =>
      rw [letters_unary_append] at h
      have hname := (word_append_inj isWord_nil op'.isWord_name (breaks_open _) (breaks_open _) h).1
      cases op' <;> simp [Unary.name] at hname
    | binary op' a' b' =>
      rw [letters_binary_append] at h
      simp only [texts, List.mem_append] at ho ho'
      obtain ⟨ha, hname⟩ := iha (fun s hs => ho s (.inl hs)) (fun s hs => ho' s (.inl hs))
        (closes_space _) (closes_space _) (List.cons.inj h).2
      obtain ⟨hop, hspace⟩ := word_append_inj op.isWord_name op'.isWord_name (breaks_space _)
        (breaks_space _) (List.cons.inj hname).2
      obtain ⟨hb, hrest⟩ := ihb (fun s hs => ho s (.inr hs)) (fun s hs => ho' s (.inr hs))
        (closes_paren r) (closes_paren r') (List.cons.inj hspace).2
      exact ⟨by rw [Binary.name_injective hop, ha, hb], (List.cons.inj hrest).2⟩

end

/-- Formulas with the same text have the same connectives in the same places, and propositions with
the same text. -/
theorem text_uniquely_readable (f g : Formula)
    (hf : ∀ p ∈ f.propositions, IsWord p.text.toList)
    (hg : ∀ p ∈ g.propositions, IsWord p.text.toList) :
    f.text = g.text ↔ f.outline = g.outline := by
  have hwords : ∀ {f : Formula}, (∀ p ∈ f.propositions, IsWord p.text.toList) →
      ∀ s ∈ f.outline.texts, IsWord s.toList := by
    intro f hf s hs
    rw [Formula.texts_outline] at hs
    obtain ⟨p, hp, rfl⟩ := List.mem_map.1 hs
    exact hf p hp
  rw [← String.toList_inj, Formula.toList_text, Formula.toList_text]
  constructor
  · intro h
    have hend : Closes [] := by simp [Closes]
    exact (Outline.letters_append_inj (hwords hf) (hwords hg) hend hend (by rw [h])).1
  · intro h
    rw [h]

theorem text_uniquely_readable_names :
    let p := fun name ring : String =>
      Formula.prop ⟨.event name, some "And", some (.callback ring), none⟩
    let f := fun ring => (((p "Not" ring).and (p "Next" ring)).not).until (p "Until" ring).next
    f "up" ≠ f "down" ∧ (∀ q ∈ (f "up").propositions, IsWord q.text.toList) ∧
      (∀ q ∈ (f "down").propositions, IsWord q.text.toList) ∧ (f "up").text = (f "down").text ∧
      (f "up").outline = (f "down").outline := by
  intro p f
  have hwords : ∀ ring, ∀ q ∈ (f ring).propositions, IsWord q.text.toList := by
    intro ring
    simp [f, p, Formula.propositions, Proposition.text, Proposition.hasTrigger, IsWord, inWord]
  have htext : (f "up").text = (f "down").text := rfl
  exact ⟨by decide, hwords "up", hwords "down", htext,
    (text_uniquely_readable _ _ (hwords "up") (hwords "down")).1 htext⟩

end TemporalMonitor

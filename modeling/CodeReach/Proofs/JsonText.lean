import CodeReach.Json.Printer
import CodeReach.Json.Reader
import CodeReach.Proofs.JsonLiterals

namespace CodeReach.Json

open Text

/-- Values whose strings are escaped texts and whose numbers are the digits of 64-bit numbers. -/
inductive Plain : Json → Prop
  | null : Plain null
  | bool (b : Bool) : Plain (bool b)
  | number (w : UInt64) : Plain (number (Nat.toDigits 10 w.toNat))
  | string (cs : List Char) : Plain (string (Literal.escape cs))
  | array {items : List Json} (h : ∀ v ∈ items, Plain v) : Plain (array items)
  | object {members : List (List Char × Json)}
      (hkeys : ∀ m ∈ members, ∃ cs, m.1 = Literal.escape cs) (h : ∀ m ∈ members, Plain m.2) :
      Plain (object members)

mutual

/-- The tokens of a value in the order in which they are written. -/
def toTokens : Json → List Token
  | null => [.null]
  | bool b => [.bool b]
  | number literal => [.number literal]
  | string literal => [.string literal]
  | array [] => [.openArray, .closeArray]
  | array (v :: rest) => .openArray :: (toTokens v ++ itemTokens rest)
  | object [] => [.openObject, .closeObject]
  | object ((key, v) :: rest) =>
    .openObject :: .string key :: .colon :: (toTokens v ++ memberTokens rest)

/-- The tokens after an item, up to the end of the array. -/
def itemTokens : List Json → List Token
  | [] => [.closeArray]
  | v :: rest => .comma :: (toTokens v ++ itemTokens rest)

/-- The tokens after a member, up to the end of the object. -/
def memberTokens : List (List Char × Json) → List Token
  | [] => [.closeObject]
  | (key, v) :: rest => .comma :: .string key :: .colon :: (toTokens v ++ memberTokens rest)

end

/-- A text spells tokens if they are found in it one after another, with blanks before any of them
and after the last. -/
inductive Spells : List Char → List Token → Prop
  | done : Spells [] []
  | blank {c : Char} {cs : List Char} {ts : List Token} (hc : Token.isBlank c = true)
      (h : Spells cs ts) : Spells (c :: cs) ts
  | token {c : Char} {cs rest : List Char} {t : Token} {ts : List Token}
      (hc : Token.isBlank c = false) (hfirst : Token.first? (c :: cs) = some (t, rest))
      (hshort : rest.length ≤ cs.length) (h : Spells rest ts) : Spells (c :: cs) (t :: ts)

theorem Token.endsNumber_of_isBlank {c : Char} (h : isBlank c = true) (rest : List Char) :
    EndsNumber (c :: rest) := by
  intro d hd
  cases hd
  simp only [isBlank, Bool.or_eq_true, beq_iff_eq] at h
  rcases h with ((rfl | rfl) | rfl) | rfl <;> decide

theorem Token.isBlank_eq_false_of_isDigit {c : Char} (h : Decimal.isDigit c = true) :
    isBlank c = false := by
  cases hblank : isBlank c with
  | false => rfl
  | true =>
    have hnot := (endsNumber_of_isBlank hblank [] c rfl).1
    rw [h] at hnot
    cases hnot

namespace Spells

variable {cs k gap : List Char} {ts : List Token}

theorem tokensFrom_eq (h : Spells cs ts) {n : Nat} (hn : cs.length ≤ n) :
    Token.tokensFrom n cs = some ts := by
  induction h generalizing n with
  | done => cases n <;> rfl
  | blank hc _ ih =>
    obtain ⟨n, rfl⟩ : ∃ m, n = m + 1 := Nat.exists_eq_add_one.mpr (by simp at hn; omega)
    rw [Token.tokensFrom, if_pos hc]
    exact ih (by simpa using hn)
  | token hc hfirst hshort _ ih =>
    obtain ⟨n, rfl⟩ : ∃ m, n = m + 1 := Nat.exists_eq_add_one.mpr (by simp at hn; omega)
    have hrest := ih (le_trans hshort (by simpa using hn))
    simp [Token.tokensFrom, hc, hfirst, hrest]

theorem tokens?_eq (h : Spells cs ts) : tokens? cs = some ts := h.tokensFrom_eq le_rfl

theorem blanks (hgap : ∀ c ∈ gap, Token.isBlank c = true) (h : Spells k ts) :
    Spells (gap ++ k) ts := by
  induction gap with
  | nil => exact h
  | cons c gap ih =>
    rw [List.forall_mem_cons] at hgap
    exact .blank hgap.1 (ih hgap.2)

theorem string (cs : List Char) (h : Spells k ts) :
    Spells (quoted (Literal.escape cs) ++ k) (.string (Literal.escape cs) :: ts) := by
  have htext : quoted (Literal.escape cs) ++ k = '"' :: (Literal.escape cs ++ '"' :: k) := by
    simp [quoted]
  rw [htext]
  refine .token (by decide) (Token.first?_escape cs k) ?_ h
  simp only [List.length_append, List.length_cons]
  omega

theorem number (n : Nat) (hk : Token.EndsNumber k) (h : Spells k ts) :
    Spells (Nat.toDigits 10 n ++ k) (.number (Nat.toDigits 10 n) :: ts) := by
  have hfirst := Token.first?_toDigits (n := n) hk
  obtain ⟨c, cs, hdigits⟩ := List.exists_cons_of_ne_nil (Nat.toDigits_ne_nil (b := 10) (n := n))
  have hc : Decimal.isDigit c = true :=
    Decimal.isDigit_of_mem_toDigits (n := n) (by simp [hdigits])
  rw [hdigits] at hfirst ⊢
  exact .token (Token.isBlank_eq_false_of_isDigit hc) hfirst (by simp) h

end Spells

/-- A character that is a token by itself, whatever follows it, and never part of a number. -/
structure Mark (c : Char) (t : Token) : Prop where
  solid : Token.isBlank c = false
  apart : Decimal.isDigit c = false ∧ c ≠ '.' ∧ c ≠ 'e' ∧ c ≠ 'E'
  first : ∀ k, Token.first? (c :: k) = some (t, k)

namespace Mark

variable {c : Char} {t : Token}

theorem spells (h : Mark c t) {k : List Char} {ts : List Token} (hk : Spells k ts) :
    Spells (c :: k) (t :: ts) :=
  .token h.solid (h.first k) le_rfl hk

theorem endsNumber (h : Mark c t) (k : List Char) : Token.EndsNumber (c :: k) := by
  intro d hd
  cases hd
  exact h.apart

theorem comma : Mark ',' .comma := ⟨rfl, by decide, fun _ => rfl⟩

theorem colon : Mark ':' .colon := ⟨rfl, by decide, fun _ => rfl⟩

theorem openArray : Mark '[' .openArray := ⟨rfl, by decide, fun _ => rfl⟩

theorem closeArray : Mark ']' .closeArray := ⟨rfl, by decide, fun _ => rfl⟩

theorem openObject : Mark '\x7b' .openObject := ⟨rfl, by decide, fun _ => rfl⟩

theorem closeObject : Mark '\x7d' .closeObject := ⟨rfl, by decide, fun _ => rfl⟩

end Mark

/-- A piece of text spells the tokens wherever it stands, unless what follows goes on with a number
at its end. -/
def SpellsPiece (piece : List Char) (tokens : List Token) : Prop :=
  ∀ (k : List Char) (ts : List Token), Token.EndsNumber k → Spells k ts →
    Spells (piece ++ k) (tokens ++ ts)

section Layout

-- `gap` is what stands before each piece, and `pad` what stands before the bracket that closes.
variable (left right : Char) (gap pad : List Char)

/-- What is written after a piece, up to the bracket that closes. -/
def restText : List (List Char) → List Char
  | [] => pad ++ [right]
  | piece :: rest => ',' :: (gap ++ (piece ++ restText rest))

/-- Pieces between brackets with commas between them. -/
def bracketed : List (List Char) → List Char
  | [] => [left, right]
  | piece :: rest => left :: (gap ++ (piece ++ restText right gap pad rest))

/-- The key of a member and its value, with `space` between the colon and the value. -/
def memberText (space : List Char) (text : Json → List Char) (m : List Char × Json) : List Char :=
  quoted m.1 ++ ':' :: (space ++ text m.2)

end Layout

def restTokens (right : Token) : List (List Token) → List Token
  | [] => [right]
  | ts :: rest => .comma :: (ts ++ restTokens right rest)

def bracketedTokens (left right : Token) : List (List Token) → List Token
  | [] => [left, right]
  | ts :: rest => left :: (ts ++ restTokens right rest)

def memberToTokens (m : List Char × Json) : List Token :=
  .string m.1 :: .colon :: m.2.toTokens

theorem itemTokens_eq (items : List Json) :
    itemTokens items = restTokens .closeArray (items.map toTokens) := by
  induction items with
  | nil => rfl
  | cons v rest ih => rw [itemTokens, ih, List.map_cons, restTokens]

theorem memberTokens_eq (members : List (List Char × Json)) :
    memberTokens members = restTokens .closeObject (members.map memberToTokens) := by
  induction members with
  | nil => rfl
  | cons m rest ih =>
    rw [memberTokens, ih, List.map_cons, restTokens]
    rfl

theorem toTokens_array (items : List Json) :
    (array items).toTokens = bracketedTokens .openArray .closeArray (items.map toTokens) := by
  cases items with
  | nil => rfl
  | cons v rest => rw [toTokens, itemTokens_eq, List.map_cons, bracketedTokens]

theorem toTokens_object (members : List (List Char × Json)) :
    (object members).toTokens =
      bracketedTokens .openObject .closeObject (members.map memberToTokens) := by
  cases members with
  | nil => rfl
  | cons m rest =>
    rw [toTokens, memberTokens_eq, List.map_cons, bracketedTokens]
    rfl

theorem compactItems_eq (items : List Json) :
    compactItems items ++ [']'] = restText ']' [] [] (items.map compact) := by
  induction items with
  | nil => rfl
  | cons v rest ih =>
    rw [List.map_cons, restText, ← ih]
    simp [compactItems]

theorem compactMembers_eq (members : List (List Char × Json)) :
    compactMembers members ++ ['\x7d'] =
      restText '\x7d' [] [] (members.map (memberText [] compact)) := by
  induction members with
  | nil => rfl
  | cons m rest ih =>
    rw [List.map_cons, restText, ← ih]
    simp [compactMembers, memberText]

theorem compact_array (items : List Json) :
    (array items).compact = bracketed '[' ']' [] [] (items.map compact) := by
  cases items with
  | nil => rfl
  | cons v rest =>
    rw [List.map_cons, bracketed, ← compactItems_eq]
    simp [compact]

theorem compact_object (members : List (List Char × Json)) :
    (object members).compact =
      bracketed '\x7b' '\x7d' [] [] (members.map (memberText [] compact)) := by
  cases members with
  | nil => rfl
  | cons m rest =>
    rw [List.map_cons, bracketed, ← compactMembers_eq]
    simp [compact, memberText]

theorem prettyItems_eq (level : Nat) (pad : List Char) (items : List Json) :
    prettyItems level items ++ (pad ++ [']']) =
      restText ']' (newline level) pad (items.map (pretty level)) := by
  induction items with
  | nil => rfl
  | cons v rest ih =>
    rw [List.map_cons, restText, ← ih]
    simp [prettyItems]

theorem prettyMembers_eq (level : Nat) (pad : List Char) (members : List (List Char × Json)) :
    prettyMembers level members ++ (pad ++ ['\x7d']) =
      restText '\x7d' (newline level) pad (members.map (memberText [' '] (pretty level))) := by
  induction members with
  | nil => rfl
  | cons m rest ih =>
    rw [List.map_cons, restText, ← ih]
    simp [prettyMembers, memberText]

theorem pretty_array (level : Nat) (items : List Json) :
    (array items).pretty level =
      bracketed '[' ']' (newline (level + 1)) (newline level) (items.map (pretty (level + 1))) := by
  cases items with
  | nil => rfl
  | cons v rest =>
    rw [List.map_cons, bracketed, ← prettyItems_eq]
    simp [pretty]

theorem pretty_object (level : Nat) (members : List (List Char × Json)) :
    (object members).pretty level =
      bracketed '\x7b' '\x7d' (newline (level + 1)) (newline level)
        (members.map (memberText [' '] (pretty (level + 1)))) := by
  cases members with
  | nil => rfl
  | cons m rest =>
    rw [List.map_cons, bracketed, ← prettyMembers_eq]
    simp [pretty, memberText]

section Pieces

variable {left right : Char} {lt rt : Token} {gap pad k : List Char} {ts : List Token}
  {pieces : List (List Char)} {tokens : List (List Token)}

theorem endsNumber_restText (hright : Mark right rt) (hpad : ∀ c ∈ pad, Token.isBlank c = true)
    (pieces : List (List Char)) : Token.EndsNumber (restText right gap pad pieces ++ k) := by
  cases pieces with
  | nil =>
    cases pad with
    | nil => exact hright.endsNumber k
    | cons c pad => exact Token.endsNumber_of_isBlank (hpad c List.mem_cons_self) _
  | cons piece rest => exact Mark.comma.endsNumber _

theorem spells_restText (hright : Mark right rt) (hgap : ∀ c ∈ gap, Token.isBlank c = true)
    (hpad : ∀ c ∈ pad, Token.isBlank c = true) (h : List.Forall₂ SpellsPiece pieces tokens)
    (hk : Spells k ts) :
    Spells (restText right gap pad pieces ++ k) (restTokens rt tokens ++ ts) := by
  induction h with
  | nil =>
    rw [restText, List.append_assoc]
    exact .blanks hpad (hright.spells hk)
  | @cons piece first pieces tokens hpiece _ ih =>
    have hfirst := hpiece _ _ (endsNumber_restText hright hpad pieces) ih
    simp only [restText, restTokens, List.cons_append, List.append_assoc]
    exact Mark.comma.spells (.blanks hgap hfirst)

theorem spells_bracketed (hleft : Mark left lt) (hright : Mark right rt)
    (hgap : ∀ c ∈ gap, Token.isBlank c = true) (hpad : ∀ c ∈ pad, Token.isBlank c = true)
    (h : List.Forall₂ SpellsPiece pieces tokens) :
    SpellsPiece (bracketed left right gap pad pieces) (bracketedTokens lt rt tokens) := by
  intro k ts _ hk
  cases h with
  | nil => exact hleft.spells (hright.spells hk)
  | @cons piece first pieces tokens hpiece hrest =>
    have hfirst := hpiece _ _ (endsNumber_restText hright hpad pieces)
      (spells_restText hright hgap hpad hrest hk)
    simp only [bracketed, bracketedTokens, List.cons_append, List.append_assoc]
    exact hleft.spells (.blanks hgap hfirst)

theorem spells_memberText {space : List Char} {text : Json → List Char} {m : List Char × Json}
    (hspace : ∀ c ∈ space, Token.isBlank c = true) (hkey : ∃ cs, m.1 = Literal.escape cs)
    (h : SpellsPiece (text m.2) m.2.toTokens) :
    SpellsPiece (memberText space text m) (memberToTokens m) := by
  obtain ⟨cs, hkey⟩ := hkey
  intro k ts hend hk
  have hvalue : Spells (':' :: (space ++ (text m.2 ++ k))) (.colon :: (m.2.toTokens ++ ts)) :=
    Mark.colon.spells (.blanks hspace (h k ts hend hk))
  have hmember := Spells.string cs hvalue
  simpa [memberText, memberToTokens, hkey] using hmember

end Pieces

theorem spells_word {c : Char} {cs : List Char} {t : Token} (hc : Token.isBlank c = false)
    (hfirst : ∀ k, Token.first? (c :: (cs ++ k)) = some (t, k)) : SpellsPiece (c :: cs) [t] :=
  fun k _ _ hk => .token hc (hfirst k) (by simp) hk

theorem spells_null : SpellsPiece "null".toList [.null] := by
  change SpellsPiece ['n', 'u', 'l', 'l'] [.null]
  exact spells_word rfl fun _ => rfl

theorem spells_boolText (b : Bool) : SpellsPiece (boolText b) [.bool b] := by
  cases b with
  | true =>
    change SpellsPiece ['t', 'r', 'u', 'e'] [.bool true]
    exact spells_word rfl fun _ => rfl
  | false =>
    change SpellsPiece ['f', 'a', 'l', 's', 'e'] [.bool false]
    exact spells_word rfl fun _ => rfl

theorem isBlank_newline (level : Nat) : ∀ c ∈ newline level, Token.isBlank c = true := by
  intro c hc
  rcases List.mem_cons.mp hc with rfl | hc
  · decide
  · rw [List.eq_of_mem_replicate hc]
    decide

theorem Plain.spells_compact {v : Json} (h : Plain v) : SpellsPiece v.compact v.toTokens := by
  induction h with
  | null => exact spells_null
  | bool b => exact spells_boolText b
  | number w => exact fun k ts hend hk => .number w.toNat hend hk
  | string cs => exact fun k ts _ hk => .string cs hk
  | @array items _ ih =>
    rw [compact_array, toTokens_array]
    apply spells_bracketed Mark.openArray Mark.closeArray (by simp) (by simp)
    rw [List.forall₂_map_left_iff, List.forall₂_map_right_iff, List.forall₂_same]
    exact ih
  | @object members hkeys _ ih =>
    rw [compact_object, toTokens_object]
    apply spells_bracketed Mark.openObject Mark.closeObject (by simp) (by simp)
    rw [List.forall₂_map_left_iff, List.forall₂_map_right_iff, List.forall₂_same]
    exact fun m hm => spells_memberText (by simp) (hkeys m hm) (ih m hm)

theorem Plain.spells_pretty {v : Json} (h : Plain v) (level : Nat) :
    SpellsPiece (v.pretty level) v.toTokens := by
  induction h generalizing level with
  | null => exact spells_null
  | bool b => exact spells_boolText b
  | number w => exact fun k ts hend hk => .number w.toNat hend hk
  | string cs => exact fun k ts _ hk => .string cs hk
  | @array items _ ih =>
    rw [pretty_array, toTokens_array]
    apply spells_bracketed Mark.openArray Mark.closeArray (isBlank_newline _) (isBlank_newline _)
    rw [List.forall₂_map_left_iff, List.forall₂_map_right_iff, List.forall₂_same]
    exact fun v hv => ih v hv (level + 1)
  | @object members hkeys _ ih =>
    rw [pretty_object, toTokens_object]
    apply spells_bracketed Mark.openObject Mark.closeObject (isBlank_newline _) (isBlank_newline _)
    rw [List.forall₂_map_left_iff, List.forall₂_map_right_iff, List.forall₂_same]
    exact fun m hm => spells_memberText (by simp [Token.isBlank]) (hkeys m hm)
      (ih m hm (level + 1))

/-- The value is read from its tokens, whatever follows them, with two steps for each token. -/
def ReadBack (v : Json) : Prop :=
  ∀ (n : Nat) (rest : List Token), 2 * v.toTokens.length ≤ n →
    value? n (v.toTokens ++ rest) = some (v, rest)

theorem exists_toTokens (v : Json) : ∃ t ts, v.toTokens = t :: ts ∧ t ≠ .closeArray := by
  cases v with
  | array items => cases items <;> exact ⟨_, _, rfl, by simp⟩
  | object members => cases members <;> exact ⟨_, _, rfl, by simp⟩
  | _ => exact ⟨_, _, rfl, by simp⟩

theorem exists_step {n : Nat} {v : Json} (hn : 2 * v.toTokens.length ≤ n) : ∃ m, n = m + 1 := by
  obtain ⟨t, ts, htokens, -⟩ := exists_toTokens v
  rw [htokens, List.length_cons] at hn
  exact Nat.exists_eq_add_one.mpr (by omega)

theorem itemsOf?_eq {n : Nat} {v : Json} {items : List Json} (hv : v.ReadBack)
    (hitems : ∀ w ∈ items, w.ReadBack) (rest : List Token)
    (hn : 2 * (v.toTokens ++ itemTokens items).length ≤ n) :
    itemsOf? n (v.toTokens ++ (itemTokens items ++ rest)) = some (v :: items, rest) := by
  induction items generalizing n v with
  | nil =>
    simp only [itemTokens, List.length_append, List.length_cons, List.length_nil] at hn
    obtain ⟨n, rfl⟩ := exists_step (v := v) (n := n) (by omega)
    rw [itemsOf?, hv n _ (by omega)]
    rfl
  | cons w items ih =>
    simp only [itemTokens, List.length_append, List.length_cons] at hn
    obtain ⟨n, rfl⟩ := exists_step (v := v) (n := n) (by omega)
    rw [List.forall_mem_cons] at hitems
    have hnext := ih (n := n) hitems.1 hitems.2 (by rw [List.length_append]; omega)
    rw [itemsOf?, hv n _ (by omega)]
    simp [itemTokens, hnext]

theorem membersOf?_eq {n : Nat} {key : List Char} {v : Json} {members : List (List Char × Json)}
    (hv : v.ReadBack) (hmembers : ∀ m ∈ members, m.2.ReadBack) (rest : List Token)
    (hn : 2 * (v.toTokens ++ memberTokens members).length ≤ n) :
    membersOf? n (.string key :: .colon :: (v.toTokens ++ (memberTokens members ++ rest))) =
      some ((key, v) :: members, rest) := by
  induction members generalizing n key v with
  | nil =>
    simp only [memberTokens, List.length_append, List.length_cons, List.length_nil] at hn
    obtain ⟨n, rfl⟩ := exists_step (v := v) (n := n) (by omega)
    rw [membersOf?, hv n _ (by omega)]
    rfl
  | cons m members ih =>
    obtain ⟨name, w⟩ := m
    simp only [memberTokens, List.length_append, List.length_cons] at hn
    obtain ⟨n, rfl⟩ := exists_step (v := v) (n := n) (by omega)
    rw [List.forall_mem_cons] at hmembers
    have hnext : membersOf? n
        (.string name :: .colon :: (w.toTokens ++ (memberTokens members ++ rest))) =
        some ((name, w) :: members, rest) :=
      ih hmembers.1 hmembers.2 (by rw [List.length_append]; omega)
    rw [membersOf?, hv n _ (by omega)]
    simp [memberTokens, hnext]

/-- The bracket that opens an array is not closed at once if there is an item. -/
theorem value?_openArray {n : Nat} (v : Json) (rest : List Token) :
    value? (n + 1) (.openArray :: (v.toTokens ++ rest)) =
      (itemsOf? n (v.toTokens ++ rest)).map fun (items, rest) => (array items, rest) := by
  obtain ⟨t, ts, htokens, hne⟩ := exists_toTokens v
  rw [htokens, List.cons_append, value?]
  intro rest' heq
  exact hne (List.cons.inj heq).1

theorem Plain.readBack {v : Json} (h : Plain v) : v.ReadBack := by
  induction h with
  | null | bool | number | string =>
    intro n rest hn
    obtain ⟨n, rfl⟩ := exists_step hn
    rfl
  | @array items _ ih =>
    intro n rest hn
    obtain ⟨n, rfl⟩ := exists_step hn
    cases items with
    | nil => rfl
    | cons v items =>
      rw [List.forall_mem_cons] at ih
      simp only [toTokens, List.length_cons] at hn
      rw [toTokens, List.cons_append, List.append_assoc, value?_openArray,
        itemsOf?_eq ih.1 ih.2 rest (by omega), Option.map_some]
  | @object members _ _ ih =>
    intro n rest hn
    obtain ⟨n, rfl⟩ := exists_step hn
    cases members with
    | nil => rfl
    | cons m members =>
      rw [List.forall_mem_cons] at ih
      simp only [toTokens, List.length_cons] at hn
      simp only [toTokens, List.cons_append, List.append_assoc]
      rw [value?]
      · rw [membersOf?_eq ih.1 ih.2 rest (by omega), Option.map_some]
      · simp

theorem Plain.ofTokens?_eq {v : Json} (h : Plain v) : ofTokens? v.toTokens = some v := by
  have hvalue := h.readBack (2 * v.toTokens.length + 1) [] (by omega)
  rw [List.append_nil] at hvalue
  rw [ofTokens?, hvalue]

theorem parse?_of_spells {text : List Char} {v : Json} (h : Plain v)
    (htext : SpellsPiece text v.toTokens) : parse? (String.ofList text) = some v := by
  have hspells : Spells text v.toTokens := by
    have hend : Token.EndsNumber [] := by simp [Token.EndsNumber]
    simpa using htext [] [] hend .done
  rw [parse?, String.toList_ofList, hspells.tokens?_eq, Option.bind_some, h.ofTokens?_eq]

/-- Both written forms of a value are read back as the value. -/
theorem Plain.parse?_eq {v : Json} (h : Plain v) :
    parse? v.toCompact = some v ∧ parse? v.toPretty = some v :=
  ⟨parse?_of_spells h h.spells_compact, parse?_of_spells h (h.spells_pretty 0)⟩

end CodeReach.Json

import ReleasePrompts.Proofs.Literal.Reading

/-!
# Readings that deviate

`Compares` sets what is read of a text, lexeme by lexeme, beside what was meant by it: a lexeme may be
read as it was meant, several may be read as one, a carriage return may be read as a line feed, and
the opening delimiter of a substitution may be read where none was meant. Unless every lexeme is
read as it was meant, the reading is another, also once surrogates are joined
(`Compares.cooked_ne`).
-/

namespace ReleasePrompts.Literal

open Text

/-! ## Tokens that keep to themselves -/

/-- No surrogate. -/
def Token.IsPlain : Token → Prop
  | .unit n => n < 0xD800
  | .code _ => True

/-- What a token gives that is joined with no other. -/
def Token.image : Token → Char ⊕ List Char
  | .unit n => .inl (charOfNat n)
  | .code text => .inr text

/-- Whether a token is the code of a substitution. -/
def Token.isCode : Token → Bool
  | .unit _ => false
  | .code _ => true

theorem cooked_unit_of_not_high {n : Nat} (h : isHighSurrogate n = false) (ys : List Token) :
    cooked (.unit n :: ys) = .inl (charOfNat n) :: cooked ys := by
  rcases ys with _ | ⟨⟨m⟩ | ⟨text⟩, ys⟩
  · rfl
  · simp [cooked, h]
  · simp [cooked]

theorem isHighSurrogate_of_lt {n : Nat} (h : n < 0xD800) : isHighSurrogate n = false := by
  simp only [isHighSurrogate, Bool.and_eq_false_iff, decide_eq_false_iff_not]
  omega

theorem isLowSurrogate_of_lt {n : Nat} (h : n < 0xD800) : isLowSurrogate n = false := by
  simp only [isLowSurrogate, Bool.and_eq_false_iff, decide_eq_false_iff_not]
  omega

theorem isHighSurrogate_of_isLowSurrogate {n : Nat} (h : isLowSurrogate n = true) :
    isHighSurrogate n = false := by
  simp only [isLowSurrogate, Bool.and_eq_true, decide_eq_true_eq] at h
  simp only [isHighSurrogate, Bool.and_eq_false_iff, decide_eq_false_iff_not]
  omega

theorem cooked_cons_of_plain {t : Token} (h : t.IsPlain) (ys : List Token) :
    cooked (t :: ys) = t.image :: cooked ys := by
  cases t with
  | code text => rw [cooked, Token.image]
  | unit n => exact cooked_unit_of_not_high (isHighSurrogate_of_lt h) ys

theorem cooked_unit_cons {t : Token} (h : t.IsPlain) (n : Nat) (ys : List Token) :
    cooked (.unit n :: t :: ys) = .inl (charOfNat n) :: t.image :: cooked ys := by
  cases t with
  | code text => simp only [cooked, Token.image]
  | unit m =>
    simp only [cooked, isLowSurrogate_of_lt h, Bool.and_false, Bool.false_eq_true, if_false,
      cooked_cons_of_plain h]

theorem cooked_append_cons {t : Token} (h : t.IsPlain) (xs ys : List Token) :
    cooked (xs ++ t :: ys) = cooked xs ++ t.image :: cooked ys := by
  fun_induction cooked xs with
  | case1 => exact cooked_cons_of_plain h ys
  | case2 text rest ih => simp [cooked, ih]
  | case3 high low rest hp ih => simp [cooked, hp, ih]
  | case4 high low rest hp ih => simpa [cooked, hp] using ih
  | case5 n rest hne ih =>
    rcases rest with _ | ⟨⟨m⟩ | ⟨text⟩, rest⟩
    · exact cooked_unit_cons h n ys
    · exact absurd rfl (hne m rest)
    · simpa [cooked] using ih

theorem cooked_append_of_plain {ys : List Token} (hne : ys ≠ []) (h : ∀ t ∈ ys, t.IsPlain)
    (xs zs : List Token) :
    cooked (xs ++ ys ++ zs) = cooked xs ++ ys.map Token.image ++ cooked zs := by
  have hfront : ∀ ys : List Token, (∀ t ∈ ys, t.IsPlain) →
      cooked (ys ++ zs) = ys.map Token.image ++ cooked zs := by
    intro ys h
    induction ys with
    | nil => rfl
    | cons y ys ih =>
      rw [List.cons_append, cooked_cons_of_plain (h y List.mem_cons_self),
        ih fun t ht => h t (List.mem_cons_of_mem _ ht), List.map_cons, List.cons_append]
  cases ys with
  | nil => exact absurd rfl hne
  | cons y ys =>
    rw [List.append_assoc, List.cons_append, cooked_append_cons (h y List.mem_cons_self),
      hfront ys fun t ht => h t (List.mem_cons_of_mem _ ht)]
    simp

/-- To join surrogates across a border makes a reading no longer. -/
theorem length_cooked_append_le (xs ys : List Token) :
    (cooked (xs ++ ys)).length ≤ (cooked xs).length + (cooked ys).length := by
  fun_induction cooked xs with
  | case1 => simp
  | case2 text rest ih =>
    simp only [List.cons_append, cooked, List.length_cons]
    omega
  | case3 high low rest hp ih =>
    simp only [List.cons_append, cooked, hp, if_true, List.length_cons]
    omega
  | case4 high low rest hp ih =>
    simp only [List.cons_append, cooked, hp, Bool.false_eq_true, if_false, List.length_cons] at ih ⊢
    omega
  | case5 n rest hne ih =>
    rcases rest with _ | ⟨⟨m⟩ | ⟨text⟩, rest⟩
    · rcases ys with _ | ⟨⟨m⟩ | ⟨text⟩, ys⟩
      · rfl
      · simp only [List.singleton_append, cooked, List.length_cons, List.length_nil]
        split
        · next hp =>
            have hm := isHighSurrogate_of_isLowSurrogate (Bool.and_eq_true_iff.mp hp).2
            rw [cooked_unit_of_not_high hm, List.length_cons, List.length_cons]
            omega
        · rw [List.length_cons]
          omega
      · simp only [List.singleton_append, cooked, List.length_cons, List.length_nil]
        omega
    · exact absurd rfl (hne m rest)
    · simp only [List.cons_append, cooked, List.length_cons] at ih ⊢
      omega

theorem countP_cooked (xs : List Token) :
    (cooked xs).countP Sum.isRight = xs.countP Token.isCode := by
  fun_induction cooked xs with
  | case1 => rfl
  | case2 text rest ih => rw [List.countP_cons_of_pos rfl, List.countP_cons_of_pos rfl, ih]
  | case3 high low rest hp ih =>
    rw [List.countP_cons_of_neg Bool.false_ne_true, List.countP_cons_of_neg Bool.false_ne_true,
      List.countP_cons_of_neg Bool.false_ne_true, ih]
  | case4 high low rest hp ih =>
    rw [List.countP_cons_of_neg Bool.false_ne_true, List.countP_cons_of_neg Bool.false_ne_true, ih]
  | case5 n rest hne ih =>
    rw [List.countP_cons_of_neg Bool.false_ne_true, List.countP_cons_of_neg Bool.false_ne_true, ih]

/-! ## Comparison of what is read with what was meant -/

/-- What is read beside what was meant, and whether all of it was read as it was meant. -/
inductive Compares : Bool → Option (List Token) → List Token → Prop where
  | done : Compares true (some []) []
  /-- A lexeme is read as it was meant. -/
  | same {right : Bool} {read : Option (List Token)} {meant : List Token} (lexeme : List Token)
    (h : Compares right read meant) : Compares right (read.map (lexeme ++ ·)) (lexeme ++ meant)
  /-- Several lexemes are read as one, which has fewer units than they had. -/
  | merged {right : Bool} {read : Option (List Token)} {meant : List Token} {one several : List Nat}
    (hlt : one.length < several.length) (hplain : ∀ n ∈ several, n < 0xD800)
    (h : Compares right read meant) :
    Compares false (read.map (Token.ofUnits one ++ ·)) (Token.ofUnits several ++ meant)
  /-- A carriage return is read as a line feed. -/
  | broken {right : Bool} {read : Option (List Token)} {meant : List Token}
    (h : Compares right read meant) :
    Compares false (read.map ([.unit 10] ++ ·)) ([.unit 13] ++ meant)
  /-- A dollar sign is read as part of an opening delimiter. -/
  | opened (text : List Char) (read : Option (List Token)) (meant : List Token) :
    Compares false (read.map ([.code text] ++ ·)) ([.unit 36] ++ meant)

theorem Compares.eq_of_right {read : Option (List Token)} {meant : List Token}
    (h : Compares true read meant) : read = some meant := by
  generalize hb : true = right at h
  induction h with
  | done => rfl
  | same lexeme _ ih => rw [ih hb, Option.map_some]
  | merged | broken | opened => cases hb

/-- How a reading deviates: nowhere is it longer, and it differs; or a substitution stands in it
sooner than the one of the same number was meant to stand. -/
inductive Deviates (read meant : List Token) : Prop where
  | shorter (hle : ∀ front, (cooked (front ++ read)).length ≤ (cooked (front ++ meant)).length)
    (hne : ∀ front, cooked (front ++ read) ≠ cooked (front ++ meant))
  | sooner (before before' : List Token) {after after' : List Token} {text : List Char}
    (hread : read = before ++ .code text :: after) (hmeant : meant = before' ++ .unit 36 :: after')
    (hcount : before.countP Token.isCode = before'.countP Token.isCode)
    (hle : ∀ front, (cooked (front ++ before)).length ≤ (cooked (front ++ before')).length)

theorem Deviates.cooked_ne {read meant : List Token} (h : Deviates read meant) :
    cooked read ≠ cooked meant := by
  cases h with
  | shorter _ hne => exact hne []
  | sooner before before' hread hmeant hcount hle =>
    -- Up to the substitution that stands too soon, more of them are read than were meant.
    intro he
    rw [hread, hmeant, @cooked_append_cons (.code _) trivial,
      @cooked_append_cons (.unit 36) (show 36 < 0xD800 by decide)] at he
    have hcount' := congrArg (fun xs => (xs.take ((cooked before).length + 1)).countP Sum.isRight) he
    simp only [List.take_length_add_append, List.take_succ_cons, List.take_zero, List.countP_append,
      List.countP_singleton, Token.image, Sum.isRight_inr, if_true, countP_cooked] at hcount'
    have hsub : ∀ xs, ((cooked before' ++ Sum.inl (charOfNat 36) :: xs).take
        ((cooked before).length + 1)).countP Sum.isRight ≤ before'.countP Token.isCode := fun xs => by
      have hle := hle []
      rw [List.append_cons, List.take_append_of_le_length (by simpa using hle)]
      refine Nat.le_trans (List.take_sublist _ _).countP_le ?_
      rw [List.countP_append, List.countP_singleton, countP_cooked]
      exact Nat.le_refl _
    have := Nat.le_trans (Nat.le_of_eq hcount') (hsub _)
    omega

/-- A lexeme before both keeps the deviation. -/
theorem Deviates.same {read meant : List Token} (h : Deviates read meant) (lexeme : List Token) :
    Deviates (lexeme ++ read) (lexeme ++ meant) := by
  cases h with
  | shorter hle hne =>
    refine .shorter (fun front => ?_) fun front => ?_
    · simpa only [List.append_assoc] using hle (front ++ lexeme)
    · simpa only [List.append_assoc] using hne (front ++ lexeme)
  | sooner before before' hread hmeant hcount hle =>
    refine .sooner (lexeme ++ before) (lexeme ++ before')
      (by rw [hread, List.append_assoc]) (by rw [hmeant, List.append_assoc])
      (by rw [List.countP_append, List.countP_append, hcount]) fun front => ?_
    simpa only [List.append_assoc] using hle (front ++ lexeme)

theorem isPlain_ofUnits {units : List Nat} (h : ∀ n ∈ units, n < 0xD800) :
    ∀ t ∈ Token.ofUnits units, t.IsPlain := by
  intro t ht
  obtain ⟨n, hn, rfl⟩ := List.mem_map.mp ht
  exact h n hn

theorem countP_ofUnits (units : List Nat) : (Token.ofUnits units).countP Token.isCode = 0 := by
  rw [List.countP_eq_zero]
  intro t ht
  obtain ⟨n, -, rfl⟩ := List.mem_map.mp ht
  exact Bool.false_ne_true

theorem length_cooked_le (xs : List Token) : (cooked xs).length ≤ xs.length := by
  fun_induction cooked xs with
  | case1 => exact Nat.le_refl 0
  | case2 text rest ih => exact Nat.succ_le_succ ih
  | case3 high low rest hp ih => exact Nat.succ_le_succ (Nat.le_succ_of_le ih)
  | case4 high low rest hp ih => exact Nat.succ_le_succ ih
  | case5 n rest hne ih => exact Nat.succ_le_succ ih

/-- A lexeme that takes the place of longer ones makes what is cooked shorter. -/
theorem length_cooked_lt {one several : List Nat} (hlt : one.length < several.length)
    (hplain : ∀ n ∈ several, n < 0xD800) {read meant : List Token}
    (h : (cooked read).length ≤ (cooked meant).length) (front : List Token) :
    (cooked (front ++ (Token.ofUnits one ++ read))).length <
      (cooked (front ++ (Token.ofUnits several ++ meant))).length := by
  have hne : Token.ofUnits several ≠ [] := by
    intro e
    rw [List.map_eq_nil_iff.mp e] at hlt
    exact Nat.not_lt_zero _ hlt
  have hone := length_cooked_le (Token.ofUnits one)
  have h1 := length_cooked_append_le front (Token.ofUnits one ++ read)
  have h2 := length_cooked_append_le (Token.ofUnits one) read
  have h3 := congrArg List.length
    (cooked_append_of_plain hne (isPlain_ofUnits hplain) front meant)
  rw [List.append_assoc] at h3
  simp only [List.length_append, List.length_map, Token.ofUnits] at h3 h1 h2 ⊢ hone
  omega

theorem Deviates.merged {one several : List Nat} (hlt : one.length < several.length)
    (hplain : ∀ n ∈ several, n < 0xD800) {read meant : List Token}
    (h : read = meant ∨ Deviates read meant) :
    Deviates (Token.ofUnits one ++ read) (Token.ofUnits several ++ meant) := by
  have hshorter : (cooked read).length ≤ (cooked meant).length →
      Deviates (Token.ofUnits one ++ read) (Token.ofUnits several ++ meant) := fun hle =>
    .shorter (fun front => Nat.le_of_lt (length_cooked_lt hlt hplain hle front))
      fun front e => Nat.ne_of_lt (length_cooked_lt hlt hplain hle front) (congrArg List.length e)
  rcases h with rfl | h
  · exact hshorter (Nat.le_refl _)
  · cases h with
    | shorter hle hne => exact hshorter (hle [])
    | sooner before before' hread hmeant hcount hle =>
      refine .sooner (Token.ofUnits one ++ before) (Token.ofUnits several ++ before')
        (by rw [hread, List.append_assoc]) (by rw [hmeant, List.append_assoc])
        (by simp only [List.countP_append, countP_ofUnits, hcount]) fun front => ?_
      exact Nat.le_of_lt (length_cooked_lt hlt hplain (hle []) front)

theorem cooked_append_unit {n : Nat} (h : n < 0xD800) (front tokens : List Token) :
    cooked (front ++ ([.unit n] ++ tokens)) = cooked front ++ .inl (charOfNat n) :: cooked tokens :=
  @cooked_append_cons (.unit n) h front tokens

theorem Deviates.broken {read meant : List Token} (h : read = meant ∨ Deviates read meant) :
    Deviates ([.unit 10] ++ read) ([.unit 13] ++ meant) := by
  have hlength : ∀ {read meant : List Token}, (cooked read).length ≤ (cooked meant).length →
      ∀ front, (cooked (front ++ ([.unit 10] ++ read))).length ≤
        (cooked (front ++ ([.unit 13] ++ meant))).length := fun hle front => by
    rw [cooked_append_unit (by decide), cooked_append_unit (by decide)]
    simp only [List.length_append, List.length_cons]
    omega
  have hdiffer : ∀ front, cooked (front ++ ([.unit 10] ++ read)) ≠
      cooked (front ++ ([.unit 13] ++ meant)) := fun front he => by
    rw [cooked_append_unit (by decide), cooked_append_unit (by decide)] at he
    exact absurd (Sum.inl.inj (List.cons.inj (List.append_cancel_left he)).1) (by decide)
  rcases h with rfl | h
  · exact .shorter (hlength (Nat.le_refl _)) hdiffer
  · cases h with
    | shorter hle hne => exact .shorter (hlength (hle [])) hdiffer
    | sooner before before' hread hmeant hcount hle =>
      exact .sooner ([.unit 10] ++ before) ([.unit 13] ++ before')
        (by rw [hread, List.append_assoc]) (by rw [hmeant, List.append_assoc])
        (by simp only [List.countP_append, hcount]; rfl) (hlength (hle []))

theorem Compares.deviates {right : Bool} {read : Option (List Token)} {meant : List Token}
    (h : Compares right read meant) {tokens : List Token} (hr : read = some tokens) :
    right = true ∧ tokens = meant ∨ right = false ∧ Deviates tokens meant := by
  induction h generalizing tokens with
  | done => exact .inl ⟨rfl, (Option.some.inj hr).symm⟩
  | same lexeme h ih =>
    obtain ⟨rest, hrest, rfl⟩ := Option.map_eq_some_iff.mp hr
    rcases ih hrest with ⟨hb, rfl⟩ | ⟨hb, hd⟩
    · exact .inl ⟨hb, rfl⟩
    · exact .inr ⟨hb, hd.same lexeme⟩
  | merged hlt hplain h ih =>
    obtain ⟨rest, hrest, rfl⟩ := Option.map_eq_some_iff.mp hr
    exact .inr ⟨rfl, .merged hlt hplain ((ih hrest).imp And.right And.right)⟩
  | broken h ih =>
    obtain ⟨rest, hrest, rfl⟩ := Option.map_eq_some_iff.mp hr
    exact .inr ⟨rfl, .broken ((ih hrest).imp And.right And.right)⟩
  | opened text read meant =>
    obtain ⟨rest, hrest, rfl⟩ := Option.map_eq_some_iff.mp hr
    exact .inr ⟨rfl, .sooner [] [] rfl rfl rfl fun _ => Nat.le_refl _⟩

/-- What is read is cooked to what was meant just if every lexeme is read as it was meant. -/
theorem Compares.cooked_eq_iff {right : Bool} {read : Option (List Token)} {meant : List Token}
    (h : Compares right read meant) : read.map cooked = some (cooked meant) ↔ right = true := by
  constructor
  · intro he
    obtain ⟨tokens, hr, hc⟩ := Option.map_eq_some_iff.mp he
    rcases h.deviates hr with ⟨hb, -⟩ | ⟨-, hd⟩
    · exact hb
    · exact absurd hc hd.cooked_ne
  · rintro rfl
    rw [h.eq_of_right, Option.map_some]

end ReleasePrompts.Literal

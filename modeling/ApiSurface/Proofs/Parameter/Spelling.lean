import ApiSurface.Parameter.Reader
import ApiSurface.Proofs.Text.Trim
import ApiSurface.Proofs.TypeExpr.RoundTrip

namespace ApiSurface

open Text TopLevel
open ApiSurface.Bracket (Passes ofOpener? ofCloser?)

namespace Parameter

/-- A receiver whose lifetime is one, or a name other than `mut` with a well-formed type. -/
inductive WellFormed : Parameter → Prop
  | receiver {m : Modifiers} (life : ∀ l ∈ m.lifetime, IsLifetime l.toList) :
      (Parameter.receiver m).WellFormed
  | typed {name : String} {type : TypeExpr} (word : isIdentifier name.toList = true)
      (plain : name.toList ≠ Modifiers.mutWord) (wellFormed : type.WellFormed) :
      (Parameter.typed name type).WellFormed

/-- Parameters that may stand in one list: only the first may be a receiver, and no typed one that
stands there is called `self`. -/
structure AreListed (ps : List Parameter) : Prop where
  each : ∀ p ∈ ps, p.WellFormed
  receiverFirst : ∀ p ∈ ps.tail, p.isReceiver = false
  first : ∀ name type, ps.head? = some (.typed name type) → name.toList ≠ selfWord

/-- What may stand behind `self`: nothing, or a colon and a type with white space around it. -/
inductive IsReceiverType : List Char → Prop
  | absent : IsReceiverType []
  | present {type : TypeExpr} {before after : List Char} (wellFormed : type.WellFormed)
      (blankBefore : isBlankText before = true) (blankAfter : isBlankText after = true) :
      IsReceiverType (':' :: before ++ type.chars ++ after)

/-- How a parameter may be spelled: with white space around each of its parts, and with `mut` before
its name. -/
inductive Spells : Parameter → List Char → Prop
  | receiver {m : Modifiers} {modifiers gap declared : List Char} (spelled : m.Spells modifiers)
      (blank : isBlankText gap = true) (type : IsReceiverType declared) :
      (Parameter.receiver m).Spells (modifiers ++ selfWord ++ gap ++ declared)
  | typed {name : String} {type : TypeExpr} {isMutable : Bool}
      {front mutable beforeColon afterColon back : List Char}
      (blankFront : isBlankText front = true)
      (word : IsSpaced (Modifiers.mutWord? isMutable) mutable)
      (blankBefore : isBlankText beforeColon = true) (blankAfter : isBlankText afterColon = true)
      (blankBack : isBlankText back = true) :
      (Parameter.typed name type).Spells
        (front ++ mutable ++ name.toList ++ beforeColon ++ ':' :: afterColon ++ type.chars ++ back)

/-- How a list may be spelled: white space only if it is empty, else parameters with commas between
them and perhaps one more comma. -/
inductive AreSpelled : List Parameter → List Char → Prop
  | nil {s : List Char} (blank : isBlankText s = true) : AreSpelled [] s
  | last {p : Parameter} {s : List Char} (spelled : p.Spells s) : AreSpelled [p] s
  | cons {p : Parameter} {ps : List Parameter} {s t : List Char} (spelled : p.Spells s)
      (more : AreSpelled ps t) : AreSpelled (p :: ps) (s ++ ',' :: t)

section Passes

variable {s : List Char}

theorem passes_of_isBlankText (h : isBlankText s = true) : Passes isTypeChar s := by
  refine Passes.of_forall fun c hc => ?_
  have hb := List.all_eq_true.1 h c hc
  have hne {d : Char} (hd : isBlank d = false) : c ≠ d := by
    rintro rfl
    rw [hd] at hb
    cases hb
  obtain ⟨ho, hc⟩ := Bracket.not_bracket_of_isBlank hb
  refine ⟨ho, hc, hne rfl, ?_⟩
  simp only [isTypeChar, Bool.and_eq_true, bne_iff_ne]
  exact ⟨⟨hne rfl, hne rfl⟩, hne rfl⟩

theorem passes_of_isSpaced {word? : Option (List Char)} (hs : IsSpaced word? s)
    (hw : ∀ word ∈ word?, Passes isTypeChar word) : Passes isTypeChar s := by
  cases hs with
  | absent => exact Passes.nil
  | word _ hb => exact (hw _ rfl).append (passes_of_isBlankText hb)

theorem passes_mutWord {isMutable : Bool} (hs : IsSpaced (Modifiers.mutWord? isMutable) s) :
    Passes isTypeChar s := by
  refine passes_of_isSpaced hs fun word hword => ?_
  obtain ⟨-, hword⟩ := Option.ite_none_right_eq_some.1 hword
  rw [← Option.some.inj hword]
  exact Passes.of_forall (by decide)

theorem passes_mark {c : Char} (hc : isTypeChar c = true ∧ c ≠ '-' ∧ ofOpener? c = none ∧
    ofCloser? c = none) (hs : isBlankText s = true) : Passes isTypeChar (c :: s) :=
  (Passes.single hc.2.2.1 hc.2.2.2 hc.2.1 hc.1).append (passes_of_isBlankText hs)

theorem passes_ampersand {isReference : Bool} (hs : Modifiers.IsAmpersand isReference s) :
    Passes isTypeChar s := by
  cases hs with
  | absent => exact Passes.nil
  | present hb => exact passes_mark (by decide) hb

theorem passes_modifiers {m : Modifiers} (hl : ∀ l ∈ m.lifetime, IsLifetime l.toList)
    (hs : m.Spells s) : Passes isTypeChar s := by
  obtain ⟨hfront, hamp, hlife, hmut⟩ := hs
  have hlife := passes_of_isSpaced hlife fun word hword => by
    obtain ⟨l, hm, rfl⟩ := Option.map_eq_some_iff.1 hword
    exact (hl l hm).passes
  exact (((passes_of_isBlankText hfront).append (passes_ampersand hamp)).append hlife).append
    (passes_mutWord hmut)

theorem IsReceiverType.passes (hs : IsReceiverType s) : Passes isTypeChar s := by
  cases hs with
  | absent => exact Passes.nil
  | present ht hb ha =>
    exact ((passes_mark (by decide) hb).append ht.passes).append (passes_of_isBlankText ha)

/-- A spelled parameter has no comma outside brackets. -/
theorem WellFormed.passes {p : Parameter} (hp : p.WellFormed) (hs : p.Spells s) :
    Passes isTypeChar s := by
  cases hs with
  | receiver hm hb ha =>
    cases hp with
    | receiver hl =>
      have hself : Passes isTypeChar selfWord := Passes.of_forall (by decide)
      exact (((passes_modifiers hl hm).append hself).append (passes_of_isBlankText hb)).append
        ha.passes
  | typed hf hm hb ha hback =>
    cases hp with
    | typed hw _ ht =>
      have hname := ((passes_of_isBlankText hf).append (passes_mutWord hm)).append
        (passes_of_isIdentifier hw)
      have hcolon := passes_mark (c := ':') (by decide) ha
      exact (((hname.append (passes_of_isBlankText hb)).append hcolon).append ht.passes).append
        (passes_of_isBlankText hback)

end Passes

section Typed

variable {s post : List Char} {name : String} {type : TypeExpr}

theorem readName_spaced {name t : List Char} {isMutable : Bool} (hw : isIdentifier name = true)
    (hm : name ≠ Modifiers.mutWord) (ht : IsSpaced (Modifiers.mutWord? isMutable) t)
    (hp : continuesWord post = false) : readName (t ++ (name ++ post)) = .ok (name, post) := by
  have hword := forall_isWordChar_of_isIdentifier hw
  have hfirst := fun c hc => isBlank_of_isWordChar (isWordChar_head_append hw post c hc)
  have hmut := Modifiers.readMut_spaced ht hfirst (keyword?_eq_none_of_ne (by decide) hword hp hm)
  rw [readName, ← Modifiers.readMut_snd, hmut]
  dsimp only
  rw [readIdentifier_append hw hp]
  rfl

theorem afterColon_blank_append {gap : List Char} (hb : isBlankText gap = true)
    (hs : s.head? ≠ some ':') (name : String) :
    afterColon name (trimStart (gap ++ ':' :: s)) = .ok s := by
  rw [trimStart_blank_append hb, trimStart_cons rfl]
  unfold afterColon
  split
  · rename_i he
    rw [(List.cons.inj he).2] at hs
    exact absurd rfl hs
  · rename_i he
    rw [(List.cons.inj he).2]
  · rename_i hno
    exact (hno s rfl).elim

/-- A spelled parameter is read up to the white space behind its type. -/
theorem readTyped_spelled (hp : (typed name type).WellFormed) (hs : (typed name type).Spells s)
    (hpost : Stops type.endsOpen post) : trimStart (s ++ post) ≠ [] ∧ ∃ back,
      isBlankText back = true ∧
        readTyped (trimStart (s ++ post)) = .ok (typed name type, back ++ post) := by
  cases hp with
  | typed hw hm ht =>
    cases hs with
    | @typed _ _ isMutable front mutable beforeColon afterColon back hf hmut hb ha hback =>
      let rest := beforeColon ++ ':' :: (afterColon ++ (type.chars ++ (back ++ post)))
      have hfirst := Modifiers.forall_head?_mutable hmut (by decide) fun c hc =>
        isBlank_of_isWordChar (isWordChar_head_append hw rest c hc)
      have htrim : trimStart (front ++ mutable ++ name.toList ++ beforeColon ++ ':' :: afterColon ++
          type.chars ++ back ++ post) = mutable ++ (name.toList ++ rest) := by
        simp only [List.append_assoc, List.cons_append, trimStart_blank_append hf]
        exact trimStart_eq_self hfirst
      have hrest : continuesWord rest = false :=
        continuesWord_append (continuesWord_of_isBlankText hb) rfl
      have hname := readName_spaced hw hm hmut hrest
      have hcolon := afterColon_blank_append hb (head?_blank_append_ne ha rfl
        (ht.head?_ne (by decide) (by decide) (back ++ post))) name
      have htype := TypeExpr.read_chars ht ha (Stops.blank_append hback hpost)
      rw [htrim]
      refine ⟨?_, back, hback, ?_⟩
      · simp [(IsTight.of_isIdentifier hw).ne_nil]
      · rw [readTyped, hname, ok_bind]
        dsimp only
        rw [String.ofList_toList, hcolon, ok_bind, htype, ok_bind]
        rfl

theorem readTypedAll_nil (hs : trimStart s = []) : readTypedAll s = .ok [] := by
  rw [readTypedAll_eq, hs, if_pos List.isEmpty_nil]

/-- What stands behind a parameter: a comma and the text after it, or nothing. -/
def behind (after : Option (List Char)) : List Char := after.elim [] (',' :: ·)

/-- A parameter with a type is read up to where its type ends, and then what is behind the comma. -/
theorem readTypedAll_typed (hp : (typed name type).WellFormed) (hs : (typed name type).Spells s)
    (after : Option (List Char)) :
    readTypedAll (s ++ behind after) =
      (readTypedAll (after.getD [])).map (typed name type :: ·) := by
  have hstops : Stops type.endsOpen (behind after) := by
    cases after with
    | none => exact Stops.nil
    | some t => exact Stops.comma t
  obtain ⟨hne, back, hback, hread⟩ := readTyped_spelled hp hs hstops
  have he : (trimStart (s ++ behind after)).isEmpty = false := by simpa using hne
  have hrest : trimStart (back ++ behind after) = behind after := by
    rw [trimStart_blank_append hback]
    cases after with
    | none => rfl
    | some t => exact trimStart_cons rfl
  rw [readTypedAll_eq, he, if_neg Bool.false_ne_true, hread, ok_bind]
  dsimp only
  rw [hrest]
  cases after with
  | none => rw [Option.getD_none, readTypedAll_nil rfl]; rfl
  | some t => rfl

/-- Spelled parameters that are no receivers are read one after another. -/
theorem readTypedAll_spelled {ps : List Parameter} (hp : ∀ p ∈ ps, p.WellFormed)
    (hr : ∀ p ∈ ps, p.isReceiver = false) (hs : AreSpelled ps s) : readTypedAll s = .ok ps := by
  induction hs with
  | nil hb => exact readTypedAll_nil (trimStart_eq_nil_iff.2 hb)
  | @last p s hs =>
    cases p with
    | receiver m => exact absurd (hr _ List.mem_cons_self) (by simp [isReceiver])
    | typed name type =>
      have hread := readTypedAll_typed (hp _ List.mem_cons_self) hs none
      rw [behind, Option.elim_none, List.append_nil] at hread
      rw [hread, Option.getD_none, readTypedAll_nil rfl]
      rfl
  | @cons p ps s t hs _ ih =>
    rw [List.forall_mem_cons] at hp hr
    cases p with
    | receiver m => exact absurd hr.1 (by simp [isReceiver])
    | typed name type =>
      have hread := readTypedAll_typed hp.1 hs (some t)
      rw [Option.getD_some, ih hp.2 hr.2] at hread
      exact hread

end Typed

section Receiver

variable {s : List Char}

/-- Behind `self` nothing is left, or a colon and what is read as a type. -/
theorem IsReceiverType.trim_cases {gap : List Char} (hs : IsReceiverType s)
    (hb : isBlankText gap = true) : trim (gap ++ s) = [] ∨
      ∃ text type, trim (gap ++ s) = ':' :: text ∧ TypeExpr.ofText text = .ok type := by
  rw [trim_blank_append hb]
  cases hs with
  | absent => exact .inl rfl
  | @present type before after ht hbefore hafter =>
    have htight : IsTight (':' :: before ++ type.chars) :=
      (tight_of_mark (c := ':') rfl).between before ht.tight
    have hread := TypeExpr.read_chars ht hbefore Stops.nil
    rw [List.append_nil] at hread
    rw [trim_append_blank hafter, htight.trim]
    exact .inr ⟨before ++ type.chars, type, rfl, TypeExpr.wholeWith_eq_ok hread rfl⟩

/-- A spelled receiver is found, whatever type is given to it. -/
theorem receiver?_receiver {m : Modifiers} (hp : (receiver m).WellFormed)
    (hs : (receiver m).Spells s) : receiver? s = .ok (some m) := by
  cases hp with
  | receiver hl =>
    cases hs with
    | @receiver _ modifiers gap declared hm hb ha =>
      have hends : Modifiers.Ends m.isReference (selfWord ++ (gap ++ declared)) := by
        refine ⟨?_, keyword?_eq_none_of_head (by decide)⟩
        rintro c ⟨⟩
        exact ⟨by decide, by decide, fun _ => by decide⟩
      have hself : keyword? selfWord (selfWord ++ (gap ++ declared)) = some (gap ++ declared) := by
        refine keyword?_append _ (continuesWord_append (continuesWord_of_isBlankText hb) ?_)
        cases ha <;> rfl
      rw [List.append_assoc, List.append_assoc, receiver?, Modifiers.read_spelled hl hm hends]
      dsimp only
      rw [hself]
      dsimp only
      -- The type has to be one, but none of it is kept.
      obtain hnil | ⟨text, type, hcolon, htype⟩ := ha.trim_cases hb
      · rw [hnil]
      · rw [hcolon]
        change (TypeExpr.ofText text).map _ = _
        rw [htype]
        rfl

/-- Modifiers in front of another word than `self` make no receiver. -/
theorem receiver?_of_other {isMutable : Bool} {t rest : List Char}
    (ht : (⟨false, none, isMutable⟩ : Modifiers).Spells t) (hrest : Modifiers.Ends false rest)
    (hk : keyword? selfWord rest = none) : receiver? (t ++ rest) = .ok none := by
  rw [receiver?, Modifiers.read_spelled (by simp) ht hrest]
  dsimp only
  rw [hk]

/-- A spelled name with its type is no receiver, if it is another name than `self`. -/
theorem receiver?_typed {name : String} {type : TypeExpr} (hp : (typed name type).WellFormed)
    (hself : name.toList ≠ selfWord) (hs : (typed name type).Spells s) :
    receiver? s = .ok none := by
  cases hp with
  | typed hw hm ht =>
    cases hs with
    | @typed _ _ isMutable front mutable beforeColon afterColon back hf hmut hb ha hback =>
      -- A `mut` before the name is taken for a modifier here, and then no `self` follows.
      let rest := beforeColon ++ ':' :: (afterColon ++ (type.chars ++ back))
      have hword := forall_isWordChar_of_isIdentifier hw
      have hrest : continuesWord rest = false :=
        continuesWord_append (continuesWord_of_isBlankText hb) rfl
      have hmodifiers : (⟨false, none, isMutable⟩ : Modifiers).Spells (front ++ [] ++ [] ++ mutable) :=
        .mk hf .absent .absent hmut
      have hends : Modifiers.Ends false (name.toList ++ rest) := by
        refine ⟨fun c hc => ?_, keyword?_eq_none_of_ne (by decide) hword hrest hm⟩
        have hc := isWordChar_head_append hw rest c hc
        exact ⟨isBlank_of_isWordChar hc, ne_of_isWordChar hc rfl,
          fun _ => ne_of_isWordChar hc rfl⟩
      have hnone := receiver?_of_other hmodifiers hends
        (keyword?_eq_none_of_ne (by decide) hword hrest hself)
      simpa [rest] using hnone

theorem receiver?_blank (hs : isBlankText s = true) : receiver? s = .ok none := by
  have hmod : (⟨false, none, false⟩ : Modifiers).Spells (s ++ [] ++ [] ++ []) :=
    .mk hs .absent .absent .absent
  have hends : Modifiers.Ends false [] := ⟨by simp, rfl⟩
  have h := receiver?_of_other hmod hends rfl
  simpa using h

end Receiver

section List

variable {p : Parameter} {ps : List Parameter} {s t : List Char}

theorem ofText_of_receiver? (h : receiver? (splitOnce ',' s).1 = .ok none) :
    ofText s = readTypedAll s := by
  rw [ofText]
  dsimp only
  rw [h]
  rfl

theorem ofText_blank (hs : isBlankText s = true) : ofText s = .ok [] := by
  have hsplit := splitOnce_of_passes (noComma_of_passes (passes_of_isBlankText hs))
  rw [ofText_of_receiver? (by rw [hsplit]; exact receiver?_blank hs)]
  exact readTypedAll_nil (trimStart_eq_nil_iff.2 hs)

theorem splitOnce_behind (hs : Passes (· != ',') s) (after : Option (List Char)) :
    splitOnce ',' (s ++ behind after) = (s, after) := by
  cases after with
  | none => rw [behind, Option.elim_none, List.append_nil, splitOnce_of_passes hs]
  | some t => exact splitOnce_append_sep hs t

/-- The comma behind the first parameter is the one where it is cut off, for a receiver, and the one
where its type ends, for a name. -/
theorem ofText_first (hp : AreListed (p :: ps)) (hs : p.Spells s) (after : Option (List Char))
    (ht : readTypedAll (after.getD []) = .ok ps) : ofText (s ++ behind after) = .ok (p :: ps) := by
  have hwell := hp.each p List.mem_cons_self
  have hsplit := splitOnce_behind (noComma_of_passes (hwell.passes hs)) after
  cases p with
  | receiver m =>
    rw [ofText, hsplit]
    dsimp only
    rw [receiver?_receiver hwell hs, ok_bind]
    change readTypedAll (after.getD []) >>= _ = _
    rw [ht]
    rfl
  | typed name type =>
    have hnone := receiver?_typed hwell (hp.first name type rfl) hs
    rw [ofText_of_receiver? (by rw [hsplit]; exact hnone), readTypedAll_typed hwell hs, ht]
    rfl

/-- A spelled parameter alone is read as the list of it. -/
theorem ofText_single (hp : AreListed [p]) (hs : p.Spells s) : ofText s = .ok [p] := by
  have hread := ofText_first hp hs none (readTypedAll_nil rfl)
  rwa [behind, Option.elim_none, List.append_nil] at hread

/-- Every spelling of a list is read as the list. -/
theorem ofText_spelled (hp : AreListed ps) (hs : AreSpelled ps s) : ofText s = .ok ps := by
  cases hs with
  | nil hb => exact ofText_blank hb
  | last hs => exact ofText_single hp hs
  | cons hs hmore =>
    have heach := fun q hq => hp.each q (List.mem_cons_of_mem _ hq)
    exact ofText_first hp hs (some _) (readTypedAll_spelled heach hp.receiverFirst hmore)

/-- A receiver with a type and a name with `mut`, over several lines and with a comma at the end. -/
theorem ofText_spelled_lines :
    let ps := [receiver ⟨true, some "'a", true⟩, typed "n" (.named "u8" [])]
    let s := "&'a\tmut\n self\u00a0: &Map<u8, u8> ,\n mut n: u8 ,\n".toList
    AreListed ps ∧ AreSpelled ps s ∧ ofText s = .ok ps := by
  intro ps s
  have hname (word : String) (hw : isIdentifier word.toList = true)
      (hr : word.toList ∉ reservedWords) {generics : List GenericArg}
      (hg : ∀ a ∈ generics, a.WellFormed) : (TypeExpr.named word generics).WellFormed :=
    .named ⟨word.toList, [], hw, hr, by simp, by simp⟩ hg
  have hbyte : (TypeExpr.named "u8" []).WellFormed := hname "u8" rfl (by decide) (by simp)
  have hmap : (TypeExpr.reference false none
      (.named "Map" [.type (.named "u8" []), .type (.named "u8" [])])).WellFormed := by
    refine .reference (by simp) (hname "Map" rfl (by decide) ?_)
    rw [List.forall_mem_cons, List.forall_mem_singleton]
    exact ⟨.type hbyte, .type hbyte⟩
  have hlisted : AreListed ps := by
    refine ⟨?_, by decide, fun _ _ h => Parameter.noConfusion (Option.some.inj h)⟩
    rw [List.forall_mem_cons, List.forall_mem_singleton]
    exact ⟨.receiver fun l hl => Option.some.inj hl ▸ ⟨['a'], rfl, rfl⟩, .typed rfl (by decide) hbyte⟩
  have hmut (gap : List Char) (hgap : gap ≠ []) (hb : isBlankText gap = true) :
      IsSpaced (Modifiers.mutWord? true) (Modifiers.mutWord ++ gap) := .word hgap hb
  have hmodifiers : (⟨true, some "'a", true⟩ : Modifiers).Spells "&'a\tmut\n ".toList :=
    @Modifiers.Spells.mk ⟨true, some "'a", true⟩ [] ['&'] _ _ rfl (.present rfl)
      (@IsSpaced.word "'a".toList ['\t'] (by simp) rfl) (hmut "\n ".toList (by simp) rfl)
  have hdeclared : IsReceiverType ": &Map<u8, u8> ".toList :=
    @IsReceiverType.present _ [' '] [' '] hmap rfl rfl
  have hself : (receiver ⟨true, some "'a", true⟩).Spells
      "&'a\tmut\n self\u00a0: &Map<u8, u8> ".toList :=
    @Spells.receiver _ _ ['\u00a0'] _ hmodifiers rfl hdeclared
  have htyped : (typed "n" (.named "u8" [])).Spells "\n mut n: u8 ".toList :=
    @Spells.typed _ _ _ "\n ".toList _ [] [' '] [' '] rfl (hmut [' '] (by simp) rfl) rfl rfl rfl
  have hspelled : AreSpelled ps s := .cons hself (.cons htyped (.nil (s := ['\n']) rfl))
  exact ⟨hlisted, hspelled, ofText_spelled hlisted hspelled⟩

end List

end Parameter

end ApiSurface

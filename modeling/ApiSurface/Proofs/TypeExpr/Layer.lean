import ApiSurface.Proofs.TypeExpr.Edges
import ApiSurface.Proofs.TypeExpr.Level

namespace ApiSurface

open Text TopLevel

section Layer

variable {type : Reader TypeExpr} {more : Reader (List GenericArg)} {n : Nat}

/-- The reader gives back every written type of at most `n` characters, past blanks in front. -/
def ReadsTypes (type : Reader TypeExpr) (n : Nat) : Prop :=
  ∀ t : TypeExpr, t.WellFormed → t.chars.length ≤ n → ∀ pre post, isBlankText pre = true →
    Stops t.endsOpen post → type (pre ++ (t.chars ++ post)) = .ok (t, post)

/-- The reader gives back the rest of every written list of bounds. -/
def ReadsBounds (more : Reader (List GenericArg)) (n : Nat) : Prop :=
  ∀ bounds : List GenericArg, (∀ a ∈ bounds, a.WellFormed) → (∀ a ∈ bounds, a.isBinding = false) →
    (∀ a ∈ bounds.dropLast, a.endsOpen = false) →
    (GenericArg.charsAfter " + ".toList bounds).length ≤ n → ∀ post, Stops true post →
    more (GenericArg.charsAfter " + ".toList bounds ++ post) = .ok (bounds, post)

theorem Reader.whole_eq_ok {α : Type} [ToString α] {read : Reader α} {s rest : List Char} {a : α}
    (h : read s = .ok (a, rest)) (hr : isBlankText rest = true) (kind : String) :
    Reader.whole kind read s = .ok a := by
  simp [Reader.whole, h, trim_of_isBlankText hr, bind, Except.bind, pure, Except.pure]

theorem TypeExpr.wholeWith_eq_ok {s rest : List Char} {t : TypeExpr} (h : type s = .ok (t, rest))
    (hr : isBlankText rest = true) : TypeExpr.wholeWith type s = .ok t :=
  Reader.whole_eq_ok h hr "type"

theorem ok_bind {α β ε : Type} (a : α) (f : α → Except ε β) :
    ((.ok a : Except ε α) >>= f) = f a := rfl

/-- A list is read member by member. -/
theorem mapM_map_eq_ok {α β ε : Type} {f : α → β} {g : β → Except ε α} {xs : List α}
    (h : ∀ x ∈ xs, g (f x) = .ok x) : (xs.map f).mapM g = .ok xs := by
  induction xs with
  | nil => rfl
  | cons x xs ih =>
    rw [List.map_cons, List.mapM_cons, h x List.mem_cons_self,
      ih fun y hy => h y (List.mem_cons_of_mem _ hy)]
    rfl

/-- Types between commas, with or without a comma after the only one. -/
theorem TypeExpr.mapM_listChars (ht : ReadsTypes type n) {ts : List TypeExpr}
    (hw : ∀ t ∈ ts, t.WellFormed) (hn : ∀ t ∈ ts, t.chars.length ≤ n) {last : List Char}
    (hl : last = [] ∨ ts.length = 1 ∧ last = [',']) :
    (split ',' (TypeExpr.listChars ts ++ last)).mapM (TypeExpr.wholeWith type) = .ok ts := by
  have hsplit : split ',' (TypeExpr.listChars ts ++ last) = ts.map TypeExpr.chars := by
    rcases hl with rfl | ⟨h1, rfl⟩
    · rw [List.append_nil, TypeExpr.listChars_eq]
      exact split_map_intercalate (fun t h => (hw t h).passes) fun t h => (hw t h).tight
    · obtain ⟨t, rfl⟩ := List.length_eq_one_iff.1 h1
      have ht := hw t List.mem_cons_self
      rw [TypeExpr.listChars_eq, List.map_singleton, List.intercalate_singleton]
      exact split_concat (noComma_of_passes ht.passes) ht.tight
  rw [hsplit]
  apply mapM_map_eq_ok
  intro t hm
  have := ht t (hw t hm) (hn t hm) [] [] rfl Stops.nil
  rw [List.nil_append, List.append_nil] at this
  exact TypeExpr.wholeWith_eq_ok this rfl

/-- A written argument is read back whole. -/
theorem GenericArg.readWith_chars (ht : ReadsTypes type n) {a : GenericArg} (ha : a.WellFormed)
    (hn : a.chars.length ≤ n) : GenericArg.readWith type a.chars = .ok (a, []) := by
  cases ha with
  | @type t hw =>
    rw [GenericArg.chars] at hn ⊢
    have hr := ht t hw hn [] [] rfl Stops.nil
    have hq := hw.head?_ne (d := '\'') (by decide) (by decide) []
    rw [List.append_nil] at hq
    rw [List.nil_append, List.append_nil] at hr
    have hs := hw.tight.trimStart_append []
    rw [List.append_nil] at hs
    rw [GenericArg.readWith_type, hs, hr]
    · rfl
    · rw [hs]
      rintro u hu
      exact hq (hu ▸ rfl)
    · rw [hs]
      intro word after rest hword ha
      exact absurd (congrArg List.head? ha) (hw.no_equals hword)
  | lifetime hl =>
    have hr := readLifetime_append hl (show continuesWord [] = false from rfl)
    rw [← hl.tight.trimStart_append, List.append_nil] at hr
    rw [GenericArg.chars, GenericArg.readWith_lifetime hr, String.ofList_toList]
  | @binding name t hb hw =>
    rw [GenericArg.chars, List.length_append] at hn
    have hr := ht t hw (by omega) [' '] [] rfl Stops.nil
    rw [List.append_nil] at hr
    have hword : word? (trimStart (name.toList ++ (" = ".toList ++ t.chars))) =
        some (name.toList, " = ".toList ++ t.chars) := by
      rw [(IsTight.of_isIdentifier hb).trimStart_append]
      exact word?_append hb rfl
    have hsign : trimStart (" = ".toList ++ t.chars) = '=' :: ([' '] ++ t.chars) :=
      (trimStart_cons_blank rfl).trans (trimStart_cons rfl)
    rw [GenericArg.chars, List.append_assoc, GenericArg.readWith_binding hword hsign (by simp), hr,
      String.ofList_toList]
    rfl

theorem GenericArg.mapM_args (ht : ReadsTypes type n) {args : List GenericArg}
    (hw : ∀ a ∈ args, a.WellFormed) (hn : ∀ a ∈ args, a.chars.length ≤ n) :
    (split ',' (", ".toList.intercalate (args.map GenericArg.chars))).mapM
      (GenericArg.wholeWith type) = .ok args := by
  rw [split_map_intercalate (fun a h => (hw a h).passes) fun a h => (hw a h).tight]
  exact mapM_map_eq_ok fun a hm =>
    Reader.whole_eq_ok (GenericArg.readWith_chars ht (hw a hm) (hn a hm)) rfl "generic argument"

/-- A written bound is read back from in front of what does not go on with it. -/
theorem GenericArg.readBoundWith_chars (ht : ReadsTypes type n) {a : GenericArg}
    (ha : a.WellFormed) (hb : a.isBinding = false) (hn : a.chars.length ≤ n) {post : List Char}
    (hp : Stops a.endsOpen post) :
    GenericArg.readBoundWith type (' ' :: (a.chars ++ post)) = .ok (a, post) := by
  have hs : trimStart (' ' :: (a.chars ++ post)) = a.chars ++ post := by
    rw [trimStart_cons_blank rfl, ha.tight.trimStart_append]
  rw [GenericArg.readBoundWith, hs]
  cases ha with
  | @type t hw =>
    rw [GenericArg.chars] at hn ⊢
    have hr := ht t hw hn [] post rfl hp
    rw [List.nil_append] at hr
    split
    · rename_i he
      exact absurd (congrArg List.head? he) (hw.head?_ne (by decide) (by decide) post)
    · rw [hr]
      rfl
  | @lifetime name hl =>
    have hr := readLifetime_append hl hp.word
    obtain ⟨word, -, hq⟩ := hl
    rw [GenericArg.chars]
    rw [hq, List.cons_append] at hr ⊢
    change (readLifetime ('\'' :: (word ++ post))).map _ = _
    rw [hr, Except.map, Prod.map, Function.comp, ← hq, String.ofList_toList, id]
  | binding => cases hb

/-- A written list of bounds is read back, each bound up to the plus sign of the next. -/
theorem GenericArg.readBoundsWith_chars (ht : ReadsTypes type n) (hm : ReadsBounds more n)
    {bounds : List GenericArg} (hl : GenericArg.AreBounds bounds)
    (ha : ∀ a ∈ bounds, a.WellFormed) (hn : (GenericArg.boundChars bounds).length ≤ n)
    {post : List Char} (hp : Stops true post) :
    GenericArg.readBoundsWith type more (' ' :: (GenericArg.boundChars bounds ++ post)) =
      .ok (bounds, post) := by
  cases bounds with
  | nil => exact absurd rfl hl.nonempty
  | cons a as =>
    rw [GenericArg.boundChars, List.length_append] at hn
    -- What follows the first bound is the plus sign of the second, or `post`.
    have hnext : Stops a.endsOpen (GenericArg.charsAfter " + ".toList as ++ post) := by
      cases as with
      | nil => exact hp.mono
      | cons b bs =>
        rw [hl.closed a (by simp), GenericArg.charsAfter, List.append_assoc, List.append_assoc]
        exact Stops.plus_sign _
    have hclosed : ∀ b ∈ as.dropLast, b.endsOpen = false := by
      intro b hb
      refine hl.closed b ?_
      cases as with
      | nil => exact absurd hb List.not_mem_nil
      | cons c cs => exact List.mem_cons_of_mem _ hb
    have hfirst := GenericArg.readBoundWith_chars ht (ha a List.mem_cons_self)
      (hl.noBinding a List.mem_cons_self) (by omega) hnext
    have hmore := hm as (fun b hb => ha b (List.mem_cons_of_mem _ hb))
      (fun b hb => hl.noBinding b (List.mem_cons_of_mem _ hb)) hclosed (by omega) post hp
    rw [GenericArg.boundChars, List.append_assoc, GenericArg.readBoundsWith, hfirst]
    change (more _ >>= _) = _
    rw [hmore]
    rfl

theorem GenericArg.moreLevel_chars (ht : ReadsTypes type n) (hm : ReadsBounds more n) :
    ReadsBounds (GenericArg.moreLevel type more) (n + 1) := by
  intro bounds ha hb hc hn post hp
  cases bounds with
  | nil =>
    have hplus := hp.plus rfl
    rw [GenericArg.charsAfter, List.nil_append, GenericArg.moreLevel]
    split
    · rename_i he
      exact absurd (congrArg List.head? he) hplus
    · rfl
  | cons a as =>
    have hl : GenericArg.AreBounds (a :: as) := ⟨List.cons_ne_nil a as, hb, hc⟩
    have hlen : (GenericArg.boundChars (a :: as)).length ≤ n := by
      simp only [GenericArg.charsAfter, GenericArg.boundChars, List.length_append] at hn ⊢
      have : " + ".toList.length = 3 := rfl
      omega
    have hr := GenericArg.readBoundsWith_chars ht hm hl ha hlen hp
    have hs : GenericArg.charsAfter " + ".toList (a :: as) ++ post =
        ' ' :: '+' :: ' ' :: (GenericArg.boundChars (a :: as) ++ post) := by
      simp [GenericArg.charsAfter, GenericArg.boundChars]
    rw [hs, GenericArg.moreLevel, trimStart_cons_blank rfl, trimStart_cons rfl]
    exact hr

theorem TypeExpr.resultWith_chars (ht : ReadsTypes type n) {result : Option TypeExpr}
    (hw : ∀ t ∈ result, t.WellFormed) (hn : ∀ t ∈ result, t.chars.length ≤ n) {post : List Char}
    (hp : Stops (result.elim false TypeExpr.endsOpen) post) :
    TypeExpr.resultWith type (TypeExpr.resultChars result ++ post) = .ok (result, post) := by
  cases result with
  | none =>
    rw [TypeExpr.resultChars, Option.elim_none, List.nil_append, TypeExpr.resultWith]
    split
    · rename_i he
      exact absurd (show '-' ∈ ['<', '(', ':', '-'] by decide) (hp.mark '-' (by rw [he]; rfl))
    · rfl
  | some t =>
    have hr := ht t (hw t rfl) (hn t rfl) [' '] post rfl hp
    have hs : TypeExpr.resultChars (some t) ++ post =
        ' ' :: '-' :: '>' :: ([' '] ++ (t.chars ++ post)) := by
      simp [TypeExpr.resultChars]
    rw [hs, TypeExpr.resultWith, trimStart_cons_blank rfl, trimStart_cons rfl]
    change (type ([' '] ++ (t.chars ++ post))).map _ = _
    rw [hr]
    rfl

section Named

variable {name : String} {post : List Char}

theorem TypeExpr.namedWith_plain (hp : ∀ c ∈ (trimStart post).head?, c ∉ ['<', '(', ':', '-']) :
    TypeExpr.namedWith type name post = .ok (.named name [], post) := by
  unfold TypeExpr.namedWith
  split
  · rename_i he _
    exact absurd (show '(' ∈ ['<', '(', ':', '-'] by decide) (hp '(' (by rw [he]; rfl))
  · rename_i he
    exact absurd (show '<' ∈ ['<', '(', ':', '-'] by decide) (hp '<' (by rw [he]; rfl))
  · rfl

theorem TypeExpr.namedWith_args (ht : ReadsTypes type n) {args : List GenericArg}
    (hw : ∀ a ∈ args, a.WellFormed) (hn : ∀ a ∈ args, a.chars.length ≤ n) (post : List Char) :
    TypeExpr.namedWith type name
      ('<' :: ", ".toList.intercalate (args.map GenericArg.chars) ++ '>' :: post) =
        .ok (.named name args, post) := by
  have hp := passes_list fun a hm => (hw a hm).passes
  have he := Bracket.IsNested.enclosed (b := .angle) hp.nested (fun _ => hp.last) post
  have hm := GenericArg.mapM_args ht hw hn
  generalize ", ".toList.intercalate (args.map GenericArg.chars) = inner at he hm ⊢
  have hs : trimStart ('<' :: inner ++ '>' :: post) = '<' :: inner ++ '>' :: post :=
    trimStart_cons rfl
  rw [TypeExpr.namedWith, hs]
  change (Bracket.enclosed (Bracket.angle.opener :: inner ++ Bracket.angle.closer :: post) >>= _) = _
  rw [he, ok_bind]
  dsimp only
  rw [hm]
  rfl

theorem TypeExpr.namedWith_call (ht : ReadsTypes type n) (hk : name ∈ callableKinds)
    {params : List TypeExpr} {result : Option TypeExpr} (hw : ∀ t ∈ params, t.WellFormed)
    (hn : ∀ t ∈ params, t.chars.length ≤ n) {rest : List Char}
    (hr : TypeExpr.resultWith type rest = .ok (result, post)) :
    TypeExpr.namedWith type name ('(' :: TypeExpr.listChars params ++ ')' :: rest) =
      .ok (.fnTrait name params result, post) := by
  have hi := isNested_listChars fun t h => (hw t h).passes
  have he := Bracket.IsNested.enclosed (b := .round) hi (fun h => absurd h (by decide)) rest
  have hm := TypeExpr.mapM_listChars ht hw hn (.inl rfl)
  rw [List.append_nil] at hm
  have hs : trimStart ('(' :: TypeExpr.listChars params ++ ')' :: rest) =
      '(' :: TypeExpr.listChars params ++ ')' :: rest := trimStart_cons rfl
  rw [TypeExpr.namedWith, hs, List.contains_iff_mem.2 hk]
  change (Bracket.enclosed (Bracket.round.opener :: TypeExpr.listChars params ++
    Bracket.round.closer :: rest) >>= _) = _
  rw [he, ok_bind]
  dsimp only
  rw [hm, ok_bind, hr]
  rfl

end Named

section Square

variable {inner : TypeExpr}

theorem TypeExpr.squareWith_slice (ht : ReadsTypes type n) (hw : inner.WellFormed)
    (hn : inner.chars.length ≤ n) :
    TypeExpr.squareWith type inner.chars = .ok (.slice inner) := by
  have hr := ht inner hw hn [] [] rfl Stops.nil
  rw [List.nil_append, List.append_nil] at hr
  rw [TypeExpr.squareWith, splitOnce_of_passes (noSemicolon_of_passes hw.passes)]
  dsimp only
  rw [TypeExpr.wholeWith_eq_ok hr rfl]
  rfl

theorem TypeExpr.squareWith_array (ht : ReadsTypes type n) (hw : inner.WellFormed)
    (hn : inner.chars.length ≤ n) {length : String}
    (hl : trim length.toList = length.toList) :
    TypeExpr.squareWith type (inner.chars ++ "; ".toList ++ length.toList) =
      .ok (.array inner length) := by
  have hr := ht inner hw hn [] [] rfl Stops.nil
  rw [List.nil_append, List.append_nil] at hr
  have ha : inner.chars ++ "; ".toList ++ length.toList =
      inner.chars ++ ';' :: ' ' :: length.toList := by simp
  rw [ha, TypeExpr.squareWith, splitOnce_append_sep (noSemicolon_of_passes hw.passes)]
  dsimp only
  rw [TypeExpr.wholeWith_eq_ok hr rfl, trim_cons_blank (by decide), hl, String.ofList_toList]
  rfl

end Square

end Layer

end ApiSurface

import ApiSurface.Proofs.Nesting.Pieces
import ApiSurface.Proofs.Text.Trim
import ApiSurface.Proofs.TypeExpr.WellFormed
import ApiSurface.Source.Lead

namespace ApiSurface

open Text TopLevel
open ApiSurface.Bracket (enclosed)

/-- A result with the property, or a fault that spoils the item at hand only. -/
inductive Yields {α : Type} (P : α → Prop) : Except Fault α → Prop
  | ok {a : α} (holds : P a) : Yields P (.ok a)
  | error {fault : Fault} (here : fault.isItemLocal = true) : Yields P (.error fault)

namespace Yields

variable {α β γ : Type} {P : α → Prop} {Q : β → Prop} {x : Except Fault α}

theorem of_ok {a : α} (h : Yields P x) (hx : x = .ok a) : P a := by
  rw [hx] at h
  cases h with
  | ok holds => exact holds

theorem of_error {fault : Fault} (h : Yields P x) (hx : x = .error fault) :
    fault.isItemLocal = true := by
  rw [hx] at h
  cases h with
  | error here => exact here

/-- What goes on after a result may know where the result came from. -/
theorem bind {f : α → Except Fault β} (h : Yields P x)
    (hf : ∀ a, x = .ok a → P a → Yields Q (f a)) : Yields Q (x >>= f) := by
  cases h with
  | ok holds => exact hf _ rfl holds
  | error here => exact .error here

theorem map {f : α → β} (h : Yields P x) (hf : ∀ a, x = .ok a → P a → Q (f a)) :
    Yields Q (x.map f) := by
  cases h with
  | ok holds => exact .ok (hf _ rfl holds)
  | error here => exact .error here

theorem mono {R : α → Prop} (h : Yields P x) (hr : ∀ a, P a → R a) : Yields R x := by
  cases h with
  | ok holds => exact .ok (hr _ holds)
  | error here => exact .error here

theorem mapM {f : γ → Except Fault α} {l : List γ} (h : ∀ c ∈ l, Yields P (f c)) :
    Yields (fun as => ∀ a ∈ as, P a) (l.mapM f) := by
  induction l with
  | nil => exact .ok (by simp)
  | cons c l ih =>
    rw [List.mapM_cons]
    refine (h c List.mem_cons_self).bind fun a _ ha => ?_
    refine (ih fun d hd => h d (List.mem_cons_of_mem c hd)).bind fun as _ has => .ok ?_
    exact List.forall_mem_cons.2 ⟨ha, has⟩

end Yields

section Text

theorem Text.length_of_mem_pieces {sep : Char} {s piece : List Char} (h : piece ∈ pieces sep s) :
    piece.length ≤ s.length := by
  have hle := length_le_intercalate [sep] h
  rwa [intercalate_pieces] at hle

theorem Text.length_of_mem_split {sep : Char} {s piece : List Char} (h : piece ∈ split sep s) :
    piece.length ≤ s.length := by
  obtain ⟨p, hp, rfl⟩ := List.mem_map.1 (List.mem_of_mem_filter h)
  exact (length_trim_le p).trans (length_of_mem_pieces hp)

theorem Text.length_splitOnce_le (sep : Char) (s : List Char) :
    (splitOnce sep s).1.length ≤ s.length := by
  have hcut := splitOnce_isCut sep s
  generalize splitOnce sep s = x at hcut
  cases hcut with
  | whole => exact Nat.le_refl _
  | cut eq =>
    rw [eq, List.length_append]
    exact Nat.le_add_right _ _

end Text

/-- Identifiers joined by `::`. -/
def IsWordPath (s : List Char) : Prop :=
  ∃ (first : List Char) (more : List (List Char)), isIdentifier first = true ∧
    (∀ word ∈ more, isIdentifier word = true) ∧ s = first ++ more.flatMap ("::".toList ++ ·)

mutual

/-- What every type that is read is, at every depth. -/
inductive TypeExpr.Regular : TypeExpr → Prop
  | named {name : String} {generics : List GenericArg} (path : IsWordPath name.toList)
      (args : ∀ a ∈ generics, a.Regular) : (TypeExpr.named name generics).Regular
  | reference {isMutable : Bool} {lifetime : Option String} {inner : TypeExpr}
      (life : ∀ l ∈ lifetime, IsLifetime l.toList) (type : inner.Regular) :
      (TypeExpr.reference isMutable lifetime inner).Regular
  | implBound {bounds : List GenericArg} (list : GenericArg.AreBounds bounds)
      (args : ∀ a ∈ bounds, a.Regular) : (TypeExpr.implBound bounds).Regular
  | dynBound {bounds : List GenericArg} (list : GenericArg.AreBounds bounds)
      (args : ∀ a ∈ bounds, a.Regular) : (TypeExpr.dynBound bounds).Regular
  | tuple {elements : List TypeExpr} (types : ∀ t ∈ elements, t.Regular) :
      (TypeExpr.tuple elements).Regular
  | slice {inner : TypeExpr} (type : inner.Regular) : (TypeExpr.slice inner).Regular
  | array {inner : TypeExpr} {length : String} (type : inner.Regular)
      (trimmed : trim length.toList = length.toList) : (TypeExpr.array inner length).Regular
  | pointer {isMutable : Bool} {inner : TypeExpr} (type : inner.Regular) :
      (TypeExpr.pointer isMutable inner).Regular
  | fnTrait {kind : String} {params : List TypeExpr} {result : Option TypeExpr}
      (callable : kind ∈ callableKinds) (types : ∀ t ∈ params, t.Regular)
      (returned : ∀ t ∈ result, t.Regular) : (TypeExpr.fnTrait kind params result).Regular

inductive GenericArg.Regular : GenericArg → Prop
  | type {type : TypeExpr} (regular : type.Regular) : (GenericArg.type type).Regular
  | lifetime {name : String} (life : IsLifetime name.toList) : (GenericArg.lifetime name).Regular
  | binding {name : String} {type : TypeExpr} (word : isIdentifier name.toList = true)
      (regular : type.Regular) : (GenericArg.binding name type).Regular

end

/-- Whether a plus sign stands in front of a text, which goes on a list of bounds. -/
def goesOn (s : List Char) : Prop := (trimStart s).head? = some '+'

/-- What a reader of types finds: after a type that is open at its end no plus sign is left. -/
structure TypeExpr.Found (p : TypeExpr × List Char) : Prop where
  regular : p.1.Regular
  ends : p.1.endsOpen = true → ¬ goesOn p.2

/-- What a reader finds of the bounds that go on a list. -/
structure GenericArg.FoundMore (s : List Char) (p : List GenericArg × List Char) : Prop where
  regular : ∀ a ∈ p.1, a.Regular
  noBinding : ∀ a ∈ p.1, a.isBinding = false
  closed : ∀ a ∈ p.1.dropLast, a.endsOpen = false
  starts : p.1 ≠ [] → goesOn s
  ends : ¬ goesOn p.2

/-- What a reader finds of a list of bounds. -/
structure GenericArg.FoundBounds (p : List GenericArg × List Char) : Prop where
  list : GenericArg.AreBounds p.1
  regular : ∀ a ∈ p.1, a.Regular
  ends : ¬ goesOn p.2

section Words

theorem readIdentifier_yields (s : List Char) :
    Yields (fun p => isIdentifier p.1 = true) (readIdentifier s) := by
  cases h : readIdentifier s with
  | error fault =>
    unfold readIdentifier at h
    split at h <;> cases h
    exact .error rfl
  | ok p => exact .ok (word?_eq_some (readIdentifier_eq_ok_iff.1 h)).2.1

theorem readLifetime_yields (s : List Char) :
    Yields (fun p => IsLifetime p.1) (readLifetime s) := by
  unfold readLifetime
  split
  · exact (readIdentifier_yields _).map fun p _ hp => ⟨p.1, hp, rfl⟩
  · exact .error rfl

theorem enclosed_yields (s : List Char) : Yields (fun _ => True) (enclosed s) := by
  unfold enclosed
  split
  · exact .error rfl
  · split
    · exact .error rfl
    · rename_i b _
      generalize b.readInside 0 _ _ = found
      cases found with
      | error depth => exact .error rfl
      | ok p => exact .ok trivial

/-- Modifiers after an ampersand take the ampersand. -/
theorem Modifiers.read_ampersand_suffix {s rest : List Char} {m : Modifiers}
    (h : Modifiers.read ('&' :: s) = .ok (m, rest)) : rest <:+ s := by
  obtain ⟨middle, hl, -, hm⟩ := read_eq_ok_iff.1 h
  have hmut := readMut_suffix middle
  rw [hm] at hmut
  exact hmut.trans ((readLifetime?_keeps hl).trans (trimStart_suffix s))

theorem Modifiers.read_yields (s : List Char) :
    Yields (fun p => ∀ l ∈ p.1.lifetime, IsLifetime l.toList) (Modifiers.read s) := by
  have hlife (s : List Char) :
      Yields (fun p => ∀ l ∈ p.1, IsLifetime l.toList) (Modifiers.readLifetime? s) := by
    unfold readLifetime?
    split
    · refine (readLifetime_yields _).map fun p _ hp l hl => ?_
      rw [← Option.some.inj hl, String.toList_ofList]
      exact hp
    · exact .ok (by simp)
  exact (hlife _).map fun p _ hp => hp

theorem mutability_yields (s : List Char) : Yields (fun _ => True) (mutability s) := by
  unfold mutability
  split
  · exact .ok trivial
  · exact .ok trivial
  · exact .error rfl

/-- A path goes on with word characters, and after them with identifiers behind `::`. -/
theorem exists_of_pathChars (s : List Char) :
    ∃ (word : List Char) (more : List (List Char)), (∀ c ∈ word, isWordChar c = true) ∧
      (∀ w ∈ more, isIdentifier w = true) ∧
      (pathChars s).1 = word ++ more.flatMap ("::".toList ++ ·) := by
  fun_induction pathChars s with
  | case1 c rest hc ih =>
    obtain ⟨word, more, hw, hm, he⟩ := ih
    refine ⟨[], (c :: word) :: more, by simp, List.forall_mem_cons.2 ⟨?_, hm⟩, ?_⟩
    · simpa [isIdentifier, hc] using hw
    · simp [Prod.map, he]
  | case2 => exact ⟨[], [], by simp, by simp, rfl⟩
  | case3 c rest _ hc ih =>
    obtain ⟨word, more, hw, hm, he⟩ := ih
    exact ⟨c :: word, more, List.forall_mem_cons.2 ⟨hc, hw⟩, hm, by simp [Prod.map, he]⟩
  | case4 => exact ⟨[], [], by simp, by simp, rfl⟩
  | case5 => exact ⟨[], [], by simp, by simp, rfl⟩

theorem readPath_yields (s : List Char) : Yields (fun p => IsWordPath p.1) (readPath s) := by
  unfold readPath readPlainPath
  split
  · rename_i c rest _
    split
    · rename_i hc
      obtain ⟨word, more, hw, hm, he⟩ := exists_of_pathChars rest
      refine .ok ⟨c :: word, more, ?_, hm, by simp [Prod.map, he]⟩
      simpa [isIdentifier, hc] using hw
    · exact .error rfl
  · exact .error rfl

end Words

section Layer

variable {n : Nat} {type : Reader TypeExpr} {more : Reader (List GenericArg)}

/-- A text that is one thing and nothing more. -/
theorem Reader.whole_yields {α : Type} [ToString α] {read : Reader α} {P : α → Prop} {s : List Char}
    (h : Yields (fun p => P p.1) (read s)) (kind : String) : Yields P (Reader.whole kind read s) := by
  refine h.bind fun p _ hp => ?_
  dsimp only
  split
  · exact .ok hp
  · exact .error rfl

theorem Reader.mapM_whole_yields {α : Type} [ToString α] {read : Reader α} {P : α → Prop}
    (h : ∀ s, s.length ≤ n → Yields (fun p => P p.1) (read s)) {inner : List Char}
    (hi : inner.length ≤ n) (kind : String) :
    Yields (fun as => ∀ a ∈ as, P a) ((split ',' inner).mapM (Reader.whole kind read)) :=
  Yields.mapM fun piece hp => Reader.whole_yields (h piece ((length_of_mem_split hp).trans hi)) kind

/-- Behind a name and its equals sign the text is shorter. -/
theorem GenericArg.length_of_binding {s name rest : List Char}
    (h : (word? s).map (Prod.map id trimStart) = some (name, '=' :: rest)) :
    rest.length ≤ s.length := by
  obtain ⟨⟨word, after⟩, hw, he⟩ := Option.map_eq_some_iff.1 h
  have hlength := congrArg List.length (word?_eq_some hw).1
  have hafter := congrArg List.length (Prod.mk.inj he).2
  have hle := length_trimStart_le after
  simp only [List.length_append, List.length_cons] at hlength hafter
  omega

variable (ht : ∀ s, s.length ≤ n → Yields TypeExpr.Found (type s))
include ht

theorem TypeExpr.yields_regular {s : List Char} (hs : s.length ≤ n) :
    Yields (fun p => p.1.Regular) (type s) :=
  (ht s hs).mono fun _ hp => hp.regular

theorem GenericArg.readWith_yields {s : List Char} (hs : s.length ≤ n) :
    Yields (fun p => p.1.Regular) (GenericArg.readWith type s) := by
  have hstart := (length_trimStart_le s).trans hs
  have htype : Yields (fun p : GenericArg × List Char => p.1.Regular)
      ((type (trimStart s)).map (Prod.map .type id)) :=
    (ht _ hstart).map fun p _ hp => .type hp.regular
  unfold GenericArg.readWith
  split
  · exact (readLifetime_yields _).map fun p _ hp => .lifetime (by rwa [String.toList_ofList])
  · split
    · exact htype
    · rename_i name rest _ hname
      obtain ⟨⟨word, after⟩, hw, he⟩ := Option.map_eq_some_iff.1 hname
      obtain rfl := congrArg Prod.fst he
      have hid := (word?_eq_some hw).2.1
      have hrest := GenericArg.length_of_binding hname
      refine (ht rest (hrest.trans hstart)).map fun p _ hp => .binding ?_ hp.regular
      rwa [String.toList_ofList]
    · exact htype

/-- A bound is no binding, and no plus sign is left after one that is open at its end. -/
theorem GenericArg.readBoundWith_yields {s : List Char} (hs : s.length ≤ n) :
    Yields (fun p => p.1.Regular ∧ p.1.isBinding = false ∧ (p.1.endsOpen = true → ¬ goesOn p.2))
      (GenericArg.readBoundWith type s) := by
  unfold GenericArg.readBoundWith
  split
  · refine (readLifetime_yields _).map fun p _ hp =>
      ⟨.lifetime (by rwa [String.toList_ofList]), rfl, fun h => (Bool.false_ne_true h).elim⟩
  · refine (ht _ ((length_trimStart_le s).trans hs)).map fun p _ hp => ?_
    exact ⟨.type hp.regular, rfl, hp.ends⟩

theorem TypeExpr.resultWith_yields {s : List Char} (hs : s.length ≤ n) :
    Yields (fun p => (∀ t ∈ p.1, t.Regular) ∧ (∀ t ∈ p.1, t.endsOpen = true → ¬ goesOn p.2))
      (TypeExpr.resultWith type s) := by
  unfold TypeExpr.resultWith
  split
  · rename_i rest he
    have hrest : rest.length ≤ n := by
      have hlen := congrArg List.length he
      have := length_trimStart_le s
      simp only [List.length_cons] at hlen
      omega
    refine (ht rest hrest).map fun p _ hp => ⟨?_, ?_⟩
    · intro t h
      exact Option.some.inj h ▸ hp.regular
    · intro t h
      exact Option.some.inj h ▸ hp.ends
  · exact .ok (by simp)

theorem TypeExpr.namedWith_yields {name : String} {s : List Char} (hname : IsWordPath name.toList)
    (hs : s.length ≤ n) : Yields TypeExpr.Found (TypeExpr.namedWith type name s) := by
  have hstart := (length_trimStart_le s).trans hs
  unfold TypeExpr.namedWith
  split
  · rename_i args he hkind
    rw [he] at hstart
    refine (enclosed_yields _).bind fun ⟨inner, rest⟩ hi _ => ?_
    have hlen := Bracket.length_of_enclosed hi
    have hinner : inner.length ≤ n := by omega
    have hrest : rest.length ≤ n := by omega
    refine (Reader.mapM_whole_yields (fun _ => TypeExpr.yields_regular ht) hinner _).bind
      fun params _ hps => ?_
    refine (TypeExpr.resultWith_yields ht hrest).bind fun ⟨result, after⟩ _ hr => ?_
    refine .ok ⟨.fnTrait (List.contains_iff_mem.1 hkind) hps hr.1, ?_⟩
    cases result with
    | none => exact fun h => (Bool.false_ne_true h).elim
    | some t => exact hr.2 t rfl
  · rename_i args _ he
    rw [he] at hstart
    refine (enclosed_yields _).bind fun ⟨inner, rest⟩ hi _ => ?_
    have hlen := Bracket.length_of_enclosed hi
    have hinner : inner.length ≤ n := by omega
    refine (Reader.mapM_whole_yields (fun _ => GenericArg.readWith_yields ht) hinner _).bind
      fun generics _ hgs => ?_
    exact .ok ⟨.named hname hgs, fun h => (Bool.false_ne_true h).elim⟩
  · exact .ok ⟨.named hname (by simp), fun h => (Bool.false_ne_true h).elim⟩

theorem TypeExpr.squareWith_yields {inner : List Char} (hi : inner.length ≤ n) :
    Yields (fun t => t.Regular ∧ t.endsOpen = false) (TypeExpr.squareWith type inner) := by
  have hlen := (length_splitOnce_le ';' inner).trans hi
  unfold TypeExpr.squareWith
  split
  · rename_i element length hsplit
    rw [hsplit] at hlen
    refine (Reader.whole_yields (TypeExpr.yields_regular ht hlen) _).bind
      fun t _ hr => .ok ⟨.array hr ?_, rfl⟩
    rw [String.toList_ofList, trim_trim]
  · rename_i element hsplit
    rw [hsplit] at hlen
    exact (Reader.whole_yields (TypeExpr.yields_regular ht hlen) _).bind
      fun t _ hr => .ok ⟨.slice hr, rfl⟩

variable (hm : ∀ s, s.length ≤ n → Yields (GenericArg.FoundMore s) (more s)) (hadv : type.Advances)
include hm hadv

theorem GenericArg.readBoundsWith_yields {s : List Char} (hs : s.length ≤ n) :
    Yields GenericArg.FoundBounds (GenericArg.readBoundsWith type more s) := by
  refine (GenericArg.readBoundWith_yields ht hs).bind fun ⟨bound, rest⟩ hb hbound => ?_
  obtain ⟨hreg, hbind, hopen⟩ := hbound
  have hrest := (GenericArg.readBoundWith_advances hadv hb).2
  refine (hm rest (by omega)).bind fun ⟨bounds, after⟩ _ hmore => .ok ?_
  refine ⟨⟨List.cons_ne_nil _ _, List.forall_mem_cons.2 ⟨hbind, hmore.noBinding⟩, ?_⟩,
    List.forall_mem_cons.2 ⟨hreg, hmore.regular⟩, hmore.ends⟩
  by_cases hnil : bounds = []
  · subst hnil
    simp
  · -- A bound open at its end would have taken the plus sign that the next bound stands behind.
    rw [List.dropLast_cons_of_ne_nil hnil]
    refine List.forall_mem_cons.2 ⟨?_, hmore.closed⟩
    by_contra h
    exact hopen (by simpa using h) (hmore.starts hnil)

theorem GenericArg.moreLevel_yields {s : List Char} (hs : s.length ≤ n + 1) :
    Yields (GenericArg.FoundMore s) (GenericArg.moreLevel type more s) := by
  unfold GenericArg.moreLevel
  split
  · rename_i rest he
    have hrest : rest.length ≤ n := by
      have hlen := congrArg List.length he
      have := length_trimStart_le s
      simp only [List.length_cons] at hlen
      omega
    refine (GenericArg.readBoundsWith_yields ht hm hadv hrest).mono fun p hp => ?_
    exact ⟨hp.regular, hp.list.noBinding, hp.list.closed, fun _ => by rw [goesOn, he]; rfl, hp.ends⟩
  · rename_i hplus
    refine .ok ⟨by simp, by simp, by simp, fun h => absurd rfl h, fun h => ?_⟩
    obtain ⟨rest, he⟩ := List.head?_eq_some_iff.1 h
    exact hplus rest he

theorem TypeExpr.BoundWord.yields {word : List Char} {build : List GenericArg → TypeExpr}
    (hb : BoundWord word build) {s rest : List Char} (hs : s.length ≤ n + 1)
    (hk : keyword? word s = some rest) :
    Yields TypeExpr.Found ((GenericArg.readBoundsWith type more rest).map (Prod.map build id)) := by
  have hword : word ≠ [] := by cases hb <;> decide
  have hrest := Lead.length_of_keyword? hword hk
  refine (GenericArg.readBoundsWith_yields ht hm hadv (by omega)).map
    fun p _ hp => ⟨?_, fun _ => hp.ends⟩
  cases hb with
  | impl => exact .implBound hp.list hp.regular
  | dyn => exact .dynBound hp.list hp.regular

/-- One layer of a type is regular where the types inside it are. -/
theorem TypeExpr.level_yields {s : List Char} (hs : s.length ≤ n + 1) :
    Yields TypeExpr.Found (TypeExpr.level type more s) := by
  have hstart := (length_trimStart_le s).trans hs
  unfold TypeExpr.level
  split
  · rename_i rest he
    rw [he, List.length_cons] at hstart
    refine (Modifiers.read_yields _).bind fun ⟨m, middle⟩ hmods hlife => ?_
    have hmiddle := (Modifiers.read_ampersand_suffix hmods).length_le
    refine (ht middle (by omega)).bind fun ⟨inner, after⟩ _ hi => .ok ?_
    exact ⟨.reference hlife hi.regular, hi.ends⟩
  · rename_i rest he
    rw [he, List.length_cons] at hstart
    refine (mutability_yields _).bind fun ⟨isMutable, middle⟩ hmut _ => ?_
    have hmiddle := ((mutability_keeps hmut).trans (trimStart_suffix rest)).length_le
    refine (ht middle (by omega)).bind fun ⟨inner, after⟩ _ hi => .ok ?_
    exact ⟨.pointer hi.regular, hi.ends⟩
  · rename_i rest he
    rw [he] at hstart
    refine (enclosed_yields _).bind fun ⟨inner, after⟩ hi _ => ?_
    have hlen := Bracket.length_of_enclosed hi
    have hinner : inner.length ≤ n := by omega
    refine (Reader.mapM_whole_yields (fun _ => TypeExpr.yields_regular ht) hinner _).bind
      fun elements _ hes => .ok ?_
    exact ⟨.tuple hes, fun h => (Bool.false_ne_true h).elim⟩
  · rename_i rest he
    rw [he] at hstart
    refine (enclosed_yields _).bind fun ⟨inner, after⟩ hi _ => ?_
    have hlen := Bracket.length_of_enclosed hi
    have hinner : inner.length ≤ n := by omega
    refine (TypeExpr.squareWith_yields ht hinner).bind fun t _ hr => .ok ?_
    exact ⟨hr.1, fun h => absurd h (by simp [hr.2])⟩
  · split
    · exact TypeExpr.BoundWord.impl.yields ht hm hadv hstart ‹_›
    · exact TypeExpr.BoundWord.dyn.yields ht hm hadv hstart ‹keyword? "dyn".toList _ = some _›
    · refine (readPath_yields _).bind fun ⟨path, rest⟩ hpath hword => ?_
      have hrest := (readPath_advances hpath).2
      exact TypeExpr.namedWith_yields ht (by rwa [String.toList_ofList]) (by omega)

end Layer

/-- Layers as many as the text is long give regular types. -/
theorem TypeExpr.readWithin_yields (n : Nat) :
    (∀ s, s.length ≤ n → Yields TypeExpr.Found (TypeExpr.readWithin n s)) ∧
      ∀ s, s.length ≤ n → Yields (GenericArg.FoundMore s) (GenericArg.moreWithin n s) := by
  induction n with
  | zero =>
    refine ⟨fun s _ => .error rfl, fun s hs => ?_⟩
    obtain rfl := List.length_eq_zero_iff.1 (Nat.le_zero.1 hs)
    exact .ok ⟨by simp, by simp, by simp, fun h => absurd rfl h, by simp [goesOn, trimStart]⟩
  | succ n ih =>
    have hadv : (TypeExpr.readWithin n).Advances := (TypeExpr.readWithin_advances n).1
    exact ⟨fun s hs => TypeExpr.level_yields ih.1 ih.2 hadv hs,
      fun s hs => GenericArg.moreLevel_yields ih.1 ih.2 hadv hs⟩

theorem TypeExpr.read_yields (s : List Char) : Yields TypeExpr.Found (TypeExpr.read s) :=
  (TypeExpr.readWithin_yields s.length).1 s (Nat.le_refl _)

theorem TypeExpr.ofText_yields (s : List Char) : Yields TypeExpr.Regular (TypeExpr.ofText s) :=
  Reader.whole_yields ((TypeExpr.read_yields s).mono fun _ hp => hp.regular) "type"

end ApiSurface

namespace ApiSurface

mutual

inductive TypeExpr where
  /-- A path with its arguments in angle brackets. -/
  | named (name : String) (generics : List GenericArg)
  | reference (isMutable : Bool) (lifetime : Option String) (inner : TypeExpr)
  | implBound (bounds : List GenericArg)
  | dynBound (bounds : List GenericArg)
  /-- The unit type is the tuple of no types. -/
  | tuple (elements : List TypeExpr)
  | slice (inner : TypeExpr)
  /-- The length is kept as written. -/
  | array (inner : TypeExpr) (length : String)
  | pointer (isMutable : Bool) (inner : TypeExpr)
  /-- A callable bound such as `FnMut(A) -> B`. -/
  | fnTrait (kind : String) (params : List TypeExpr) (result : Option TypeExpr)
  deriving Inhabited, Repr

/-- What stands between commas in angle brackets, or between the plus signs of a bound list. -/
inductive GenericArg where
  | type (type : TypeExpr)
  | lifetime (name : String)
  /-- An associated type fixed by the argument, as `Item = u8`. -/
  | binding (name : String) (type : TypeExpr)
  deriving Inhabited, Repr

end

mutual

def TypeExpr.same : TypeExpr → TypeExpr → Bool
  | .named n gs, .named n' gs' => n == n' && GenericArg.sameAll gs gs'
  | .reference m l t, .reference m' l' t' => m == m' && l == l' && t.same t'
  | .implBound bs, .implBound bs' | .dynBound bs, .dynBound bs' => GenericArg.sameAll bs bs'
  | .tuple ts, .tuple ts' => TypeExpr.sameAll ts ts'
  | .slice t, .slice t' => t.same t'
  | .array t n, .array t' n' => t.same t' && n == n'
  | .pointer m t, .pointer m' t' => m == m' && t.same t'
  | .fnTrait k ts none, .fnTrait k' ts' none => k == k' && TypeExpr.sameAll ts ts'
  | .fnTrait k ts (some r), .fnTrait k' ts' (some r') =>
    k == k' && TypeExpr.sameAll ts ts' && r.same r'
  | _, _ => false
termination_by structural t => t

def GenericArg.same : GenericArg → GenericArg → Bool
  | .type t, .type t' => t.same t'
  | .lifetime l, .lifetime l' => l == l'
  | .binding n t, .binding n' t' => n == n' && t.same t'
  | _, _ => false

def TypeExpr.sameAll : List TypeExpr → List TypeExpr → Bool
  | [], [] => true
  | t :: ts, t' :: ts' => t.same t' && TypeExpr.sameAll ts ts'
  | _, _ => false

def GenericArg.sameAll : List GenericArg → List GenericArg → Bool
  | [], [] => true
  | a :: as, a' :: as' => a.same a' && GenericArg.sameAll as as'
  | _, _ => false

end

mutual

theorem TypeExpr.eq_of_same {s t : TypeExpr} (h : s.same t = true) : s = t := by
  unfold TypeExpr.same at h
  split at h <;> try simp only [Bool.and_eq_true, beq_iff_eq, reduceCtorEq] at h
  · rw [h.1, GenericArg.eq_of_sameAll h.2]
  · rw [h.1.1, h.1.2, TypeExpr.eq_of_same h.2]
  · rw [GenericArg.eq_of_sameAll h]
  · rw [GenericArg.eq_of_sameAll h]
  · rw [TypeExpr.eq_of_sameAll h]
  · rw [TypeExpr.eq_of_same h]
  · rw [TypeExpr.eq_of_same h.1, h.2]
  · rw [h.1, TypeExpr.eq_of_same h.2]
  · rw [h.1, TypeExpr.eq_of_sameAll h.2]
  · rw [h.1.1, TypeExpr.eq_of_sameAll h.1.2, TypeExpr.eq_of_same h.2]

theorem GenericArg.eq_of_same {a b : GenericArg} (h : a.same b = true) : a = b := by
  unfold GenericArg.same at h
  split at h <;> try simp only [Bool.and_eq_true, beq_iff_eq, reduceCtorEq] at h
  · rw [TypeExpr.eq_of_same h]
  · rw [h]
  · rw [h.1, TypeExpr.eq_of_same h.2]

theorem TypeExpr.eq_of_sameAll {ss ts : List TypeExpr} (h : TypeExpr.sameAll ss ts = true) :
    ss = ts := by
  unfold TypeExpr.sameAll at h
  split at h <;> simp only [Bool.and_eq_true, reduceCtorEq] at h
  · rfl
  · rw [TypeExpr.eq_of_same h.1, TypeExpr.eq_of_sameAll h.2]

theorem GenericArg.eq_of_sameAll {as bs : List GenericArg}
    (h : GenericArg.sameAll as bs = true) : as = bs := by
  unfold GenericArg.sameAll at h
  split at h <;> simp only [Bool.and_eq_true, reduceCtorEq] at h
  · rfl
  · rw [GenericArg.eq_of_same h.1, GenericArg.eq_of_sameAll h.2]

end

mutual

theorem TypeExpr.same_self : (t : TypeExpr) → t.same t = true
  | .named _ gs => by simp [TypeExpr.same, GenericArg.sameAll_self gs]
  | .reference _ _ t => by simp [TypeExpr.same, TypeExpr.same_self t]
  | .implBound bs => by simp [TypeExpr.same, GenericArg.sameAll_self bs]
  | .dynBound bs => by simp [TypeExpr.same, GenericArg.sameAll_self bs]
  | .tuple ts => by simp [TypeExpr.same, TypeExpr.sameAll_self ts]
  | .slice t => by simp [TypeExpr.same, TypeExpr.same_self t]
  | .array t _ => by simp [TypeExpr.same, TypeExpr.same_self t]
  | .pointer _ t => by simp [TypeExpr.same, TypeExpr.same_self t]
  | .fnTrait _ ts none => by simp [TypeExpr.same, TypeExpr.sameAll_self ts]
  | .fnTrait _ ts (some r) => by simp [TypeExpr.same, TypeExpr.sameAll_self ts, TypeExpr.same_self r]

theorem GenericArg.same_self : (a : GenericArg) → a.same a = true
  | .type t => by simp [GenericArg.same, TypeExpr.same_self t]
  | .lifetime _ => by simp [GenericArg.same]
  | .binding _ t => by simp [GenericArg.same, TypeExpr.same_self t]

theorem TypeExpr.sameAll_self : (ts : List TypeExpr) → TypeExpr.sameAll ts ts = true
  | [] => rfl
  | t :: ts => by simp [TypeExpr.sameAll, TypeExpr.same_self t, TypeExpr.sameAll_self ts]

theorem GenericArg.sameAll_self : (as : List GenericArg) → GenericArg.sameAll as as = true
  | [] => rfl
  | a :: as => by simp [GenericArg.sameAll, GenericArg.same_self a, GenericArg.sameAll_self as]

end

instance : DecidableEq TypeExpr := fun s t =>
  decidable_of_iff (s.same t = true) ⟨TypeExpr.eq_of_same, fun h => h ▸ s.same_self⟩

instance : DecidableEq GenericArg := fun a b =>
  decidable_of_iff (a.same b = true) ⟨GenericArg.eq_of_same, fun h => h ▸ a.same_self⟩

/-- The path of a named type. -/
def TypeExpr.name? : TypeExpr → Option String
  | .named name _ => some name
  | _ => none

end ApiSurface

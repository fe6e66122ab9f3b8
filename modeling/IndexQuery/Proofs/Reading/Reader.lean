import IndexQuery.Proofs.Reading.Formula
import IndexQuery.Proofs.Reading.Token

/-!
# Reading a condition

A condition is split at the words for OR that no parenthesis encloses, each part at the words for
AND, and a part between a pair of parentheses is read in turn.  Every other part is an atom, as it
stands.  So AND binds tighter than OR and parentheses group.

    Reads a φ → Reads b ψ → Reads (a ++ or :: b) (any [φ, ψ])                       (Reads.or)
    Reads a φ → Reads b ψ → Reads (a ++ and :: b) (all [φ, ψ])
                                      if no word for OR stands open in a or b      (Reads.and)
    Reads a φ → Reads (opening :: a ++ [closing]) φ                              (Reads.group)
-/

namespace IndexQuery.Token

/-! ## Algorithm -/

/-- How many parentheses are open behind a token. -/
def depth (d : Nat) : Token → Nat
  | .opening => d + 1
  | .closing => d - 1
  | _ => d

/-- Every parenthesis that is opened is closed, and so are the `d` that were open before. -/
def closesFrom : Nat → List Token → Bool
  | d, [] => d == 0
  | d, t :: ts => if d = 0 ∧ t = .closing then false else closesFrom (depth d t) ts

/-- The parts between the separators that stand outside parentheses, `d` of which are open. -/
def splitOn (separates : Token → Bool) : Nat → List Token → List (List Token)
  | _, [] => [[]]
  | d, t :: ts =>
    let parts := splitOn separates (depth d t) ts
    if d = 0 ∧ separates t then [] :: parts else parts.modifyHead (t :: ·)

/-- What a pair of parentheses around the tokens encloses. -/
def enclosed? : List Token → Option (List Token)
  | .opening :: ts =>
    if ts.getLast? = some .closing ∧ closesFrom 0 ts.dropLast then some ts.dropLast else none
  | _ => none

/-- A member of a conjunction: what parentheses enclose, or an atom. -/
def readMember (readEnclosed : List Token → Formula (List Token)) (ts : List Token) :
    Formula (List Token) :=
  match enclosed? ts with
  | some us => readEnclosed us
  | none => .atom ts

/-- The formula that tokens are, with parentheses inside each other to the depth `n`. -/
def readTo : Nat → List Token → Formula (List Token)
  | 0, ts => .atom ts
  | n + 1, ts =>
    .any ((splitOn isOr 0 ts).map fun part =>
      .all ((splitOn isAnd 0 part).map (readMember (readTo n))))

/-- The formula that tokens are. -/
def read (ts : List Token) : Formula (List Token) := readTo ts.length ts

/-- No separator stands outside parentheses, `d` of which are open. -/
def unsplitFrom (separates : Token → Bool) : Nat → List Token → Bool
  | _, [] => true
  | d, t :: ts => !(d == 0 && separates t) && unsplitFrom separates (depth d t) ts

/-- Parentheses are closed, and no connective stands outside them. -/
structure Solid (ts : List Token) : Prop where
  closed : closesFrom 0 ts = true
  noAnd : unsplitFrom isAnd 0 ts = true
  noOr : unsplitFrom isOr 0 ts = true

/-- An atom of a condition: no connective stands open, and it does not begin with a parenthesis. -/
structure IsAtom (ts : List Token) : Prop extends Solid ts where
  head : ∃ t r, ts = t :: r ∧ t ≠ .opening

/-- Tokens with closed parentheses are read as a formula that agrees with `φ`. -/
structure Reads (ts : List Token) (φ : Formula (List Token)) : Prop where
  closed : closesFrom 0 ts = true
  nonempty : ts ≠ []
  agrees : ∀ n, ts.length ≤ n → (readTo n ts).Agrees φ

/-! ## Parentheses -/

/-- More parentheses around a token stay open behind it. -/
theorem depth_add {d : Nat} {t : Token} (h : ¬(d = 0 ∧ t = .closing)) (e : Nat) :
    depth (d + e) t = depth d t + e := by
  cases t with
  | opening => exact Nat.add_right_comm d e 1
  | closing =>
    have hd : d ≠ 0 := fun hd => h ⟨hd, rfl⟩
    simp only [depth]
    omega
  | _ => rfl

theorem closesFrom_cons {d : Nat} {t : Token} {ts : List Token}
    (h : closesFrom d (t :: ts) = true) :
    ¬(d = 0 ∧ t = .closing) ∧ closesFrom (depth d t) ts = true := by
  unfold closesFrom at h
  split at h
  · cases h
  · next ht => exact ⟨ht, h⟩

theorem closesFrom_append {d : Nat} {a : List Token} (ha : closesFrom d a = true) (e : Nat)
    (b : List Token) : closesFrom (d + e) (a ++ b) = closesFrom e b := by
  induction a generalizing d with
  | nil =>
    have hd : d = 0 := by simpa [closesFrom] using ha
    rw [hd, Nat.zero_add, List.nil_append]
  | cons t a ih =>
    obtain ⟨ht, ha⟩ := closesFrom_cons ha
    have hne : ¬(d + e = 0 ∧ t = .closing) := fun h => ht ⟨by omega, h.2⟩
    rw [List.cons_append, closesFrom, if_neg hne, depth_add ht, ih ha]

theorem closesFrom_group {a : List Token} (ha : closesFrom 0 a = true) :
    closesFrom 0 (.opening :: (a ++ [.closing])) = true := by
  have hinner := closesFrom_append ha 1 [.closing]
  rw [Nat.zero_add] at hinner
  rw [closesFrom, if_neg (by simp)]
  exact hinner

/-! ## Parts -/

theorem splitOn_ne_nil (separates : Token → Bool) (d : Nat) (ts : List Token) :
    splitOn separates d ts ≠ [] := by
  induction ts generalizing d with
  | nil => simp [splitOn]
  | cons t ts ih =>
    simp only [splitOn]
    split
    · simp
    · simpa using ih _

/-- Splitting at a separator that stands outside parentheses. -/
theorem splitOn_append {separates : Token → Bool} {s : Token} (hs : separates s = true)
    (hdepth : depth 0 s = 0) {d : Nat} {a : List Token} (ha : closesFrom d a = true)
    (b : List Token) :
    splitOn separates d (a ++ s :: b) = splitOn separates d a ++ splitOn separates 0 b := by
  induction a generalizing d with
  | nil =>
    obtain rfl : d = 0 := by simpa [closesFrom] using ha
    simp [splitOn, hs, hdepth]
  | cons t a ih =>
    obtain ⟨-, ha⟩ := closesFrom_cons ha
    simp only [List.cons_append, splitOn, ih ha]
    split
    · rfl
    · cases h : splitOn separates (depth d t) a with
      | nil => exact absurd h (splitOn_ne_nil separates _ a)
      | cons p ps => rfl

theorem splitOn_of_unsplitFrom {separates : Token → Bool} {d : Nat} {ts : List Token}
    (h : unsplitFrom separates d ts = true) : splitOn separates d ts = [ts] := by
  induction ts generalizing d with
  | nil => rfl
  | cons t ts ih =>
    simp only [unsplitFrom, Bool.and_eq_true, Bool.not_eq_true', Bool.and_eq_false_iff,
      beq_eq_false_iff_ne] at h
    have ht : ¬(d = 0 ∧ separates t = true) := by
      rintro ⟨hd, hs⟩
      rcases h.1 with h | h
      · exact h hd
      · rw [hs] at h
        cases h
    simp only [splitOn, ih h.2, if_neg ht]
    rfl

theorem unsplitFrom_append {separates : Token → Bool} {d : Nat} {a : List Token}
    (hclosed : closesFrom d a = true) (ha : unsplitFrom separates d a = true) {e : Nat}
    (b : List Token) (hb : unsplitFrom separates e b = true) :
    unsplitFrom separates (d + e) (a ++ b) = true := by
  induction a generalizing d with
  | nil =>
    obtain rfl : d = 0 := by simpa [closesFrom] using hclosed
    rwa [Nat.zero_add]
  | cons t a ih =>
    obtain ⟨ht, hclosed⟩ := closesFrom_cons hclosed
    simp only [unsplitFrom, Bool.and_eq_true] at ha
    rw [List.cons_append, unsplitFrom, depth_add ht, ih hclosed ha.2, Bool.and_true]
    cases hs : separates t with
    | false => simp
    | true =>
      have hd : d ≠ 0 := by simpa [hs] using ha.1
      simp [hd]

/-- Nothing that parentheses enclose is split. -/
theorem unsplitFrom_enclosed (separates : Token → Bool) {d : Nat} {a : List Token}
    (hclosed : closesFrom d a = true) {e : Nat} (b : List Token) :
    unsplitFrom separates (d + (e + 1)) (a ++ b) = unsplitFrom separates (e + 1) b := by
  induction a generalizing d with
  | nil =>
    obtain rfl : d = 0 := by simpa [closesFrom] using hclosed
    rw [Nat.zero_add, List.nil_append]
  | cons t a ih =>
    obtain ⟨ht, hclosed⟩ := closesFrom_cons hclosed
    rw [List.cons_append, unsplitFrom, depth_add ht, ih hclosed]
    simp

theorem unsplitFrom_group {separates : Token → Bool} (hopen : separates .opening = false)
    {a : List Token} (ha : closesFrom 0 a = true) :
    unsplitFrom separates 0 (.opening :: (a ++ [.closing])) = true := by
  have hinner := unsplitFrom_enclosed separates ha (e := 0) [.closing]
  rw [Nat.zero_add, Nat.zero_add] at hinner
  rw [unsplitFrom, hopen]
  simp [depth, hinner, unsplitFrom]

theorem solid_group {a : List Token} (ha : closesFrom 0 a = true) :
    Solid (.opening :: (a ++ [.closing])) :=
  ⟨closesFrom_group ha, unsplitFrom_group rfl ha, unsplitFrom_group rfl ha⟩

theorem Solid.append {a b : List Token} (ha : Solid a) (hb : Solid b) : Solid (a ++ b) := by
  have hclosed := closesFrom_append ha.closed 0 b
  exact ⟨hclosed.trans hb.closed, unsplitFrom_append ha.closed ha.noAnd b hb.noAnd,
    unsplitFrom_append ha.closed ha.noOr b hb.noOr⟩

/-! ## Reading -/

theorem enclosed?_group {a : List Token} (ha : closesFrom 0 a = true) :
    enclosed? (.opening :: (a ++ [.closing])) = some a := by
  simp [enclosed?, ha]

/-- Without open connectives there is only one member. -/
theorem Solid.readTo_agrees {ts : List Token} (h : Solid ts) (n : Nat) :
    (readTo (n + 1) ts).Agrees (readMember (readTo n) ts) := by
  rw [readTo, splitOn_of_unsplitFrom h.noOr, List.map_singleton, splitOn_of_unsplitFrom h.noAnd,
    List.map_singleton]
  constructor
  · simp
  · intro v
    simp

theorem length_pos_of_ne_nil {ts : List Token} (h : ts ≠ []) {n : Nat} (hn : ts.length ≤ n) :
    ∃ m, n = m + 1 := by
  have := List.length_pos_iff.mpr h
  exact ⟨n - 1, by omega⟩

theorem IsAtom.ne_nil {ts : List Token} (h : IsAtom ts) : ts ≠ [] := by
  obtain ⟨t, r, rfl, -⟩ := h.head
  exact List.cons_ne_nil t r

/-- An atom is read as it stands. -/
theorem IsAtom.reads {ts : List Token} (h : IsAtom ts) : Reads ts (.atom ts) := by
  refine ⟨h.closed, h.ne_nil, fun n hn => ?_⟩
  obtain ⟨m, rfl⟩ := length_pos_of_ne_nil h.ne_nil hn
  have hmember : readMember (readTo m) ts = .atom ts := by
    obtain ⟨t, r, rfl, ht⟩ := h.head
    cases t with
    | opening => exact absurd rfl ht
    | _ => rfl
  rw [← hmember]
  exact h.readTo_agrees m

theorem Reads.of_agrees {ts : List Token} {φ ψ : Formula (List Token)} (h : Reads ts φ)
    (hφ : φ.Agrees ψ) : Reads ts ψ :=
  ⟨h.closed, h.nonempty, fun n hn => (h.agrees n hn).trans hφ⟩

/-- Parentheses around a formula are read as that formula. -/
theorem Reads.group {a : List Token} {φ : Formula (List Token)} (ha : Reads a φ) :
    Reads (.opening :: (a ++ [.closing])) φ := by
  refine ⟨closesFrom_group ha.closed, List.cons_ne_nil _ _, fun n hn => ?_⟩
  obtain ⟨m, rfl⟩ := length_pos_of_ne_nil (List.cons_ne_nil _ _) hn
  have hlength : a.length ≤ m := by
    simp only [List.length_cons, List.length_append, List.length_nil] at hn
    omega
  have hmember : readMember (readTo m) (.opening :: (a ++ [.closing])) = readTo m a := by
    unfold readMember
    rw [enclosed?_group ha.closed]
  have hread := (solid_group ha.closed).readTo_agrees m
  rw [hmember] at hread
  exact hread.trans (ha.agrees m hlength)

/-- The word for both, as it is written. -/
def andWord : Token := .word "AND".toList

/-- The word for one of two, as it is written. -/
def orWord : Token := .word "OR".toList

theorem closesFrom_connect {s : Token} (hs : ∀ d, depth d s = d) (hne : s ≠ .closing)
    {a b : List Token} (ha : closesFrom 0 a = true) (hb : closesFrom 0 b = true) :
    closesFrom 0 (a ++ s :: b) = true := by
  have happend := closesFrom_append ha 0 (s :: b)
  rw [Nat.add_zero] at happend
  rw [happend, closesFrom, if_neg fun h => hne h.2, hs, hb]

/-- Conditions with OR between them. -/
theorem Reads.or {a b : List Token} {φ ψ : Formula (List Token)} (ha : Reads a φ)
    (hb : Reads b ψ) : Reads (a ++ orWord :: b) (.any [φ, ψ]) := by
  refine ⟨closesFrom_connect (fun _ => rfl) (by decide) ha.closed hb.closed, by simp,
    fun n hn => ?_⟩
  simp only [List.length_append, List.length_cons] at hn
  obtain ⟨m, rfl⟩ : ∃ m, n = m + 1 := ⟨n - 1, by omega⟩
  have hφ := ha.agrees (m + 1) (by omega)
  have hψ := hb.agrees (m + 1) (by omega)
  rw [readTo] at hφ hψ
  rw [readTo, splitOn_append (by decide) rfl ha.closed, List.map_append]
  constructor
  · have hatoms := congr (congrArg (· ++ ·) hφ.1) hψ.1
    simpa using hatoms
  · intro v
    have heval := congr (congrArg (· || ·) (hφ.2 v)) (hψ.2 v)
    simpa using heval

/-- AND opens no OR. -/
theorem unsplitFrom_and {a b : List Token} (hclosed : closesFrom 0 a = true)
    (ha : unsplitFrom isOr 0 a = true) (hb : unsplitFrom isOr 0 b = true) :
    unsplitFrom isOr 0 (a ++ andWord :: b) = true := by
  have hword : isOr andWord = false := by decide
  have hdepth : depth 0 andWord = 0 := rfl
  refine unsplitFrom_append (e := 0) hclosed ha (andWord :: b) ?_
  rw [unsplitFrom, hword, hdepth, hb]
  rfl

/-- Without open ORs, what stands on both sides of an AND holds. -/
theorem eval_readTo_and {a b : List Token} (ha : closesFrom 0 a = true)
    (hOrA : unsplitFrom isOr 0 a = true) (hOrB : unsplitFrom isOr 0 b = true) (n : Nat)
    (v : List Token → Bool) :
    (readTo (n + 1) (a ++ andWord :: b)).eval v =
      ((readTo (n + 1) a).eval v && (readTo (n + 1) b).eval v) := by
  rw [readTo, readTo, readTo, splitOn_of_unsplitFrom (unsplitFrom_and ha hOrA hOrB),
    splitOn_of_unsplitFrom hOrA, splitOn_of_unsplitFrom hOrB, List.map_singleton,
    splitOn_append (by decide) rfl ha, List.map_append]
  simp

/-- Conditions with AND between them, in which no OR stands open. -/
theorem Reads.and {a b : List Token} {φ ψ : Formula (List Token)} (ha : Reads a φ)
    (hb : Reads b ψ) (hOrA : unsplitFrom isOr 0 a = true) (hOrB : unsplitFrom isOr 0 b = true) :
    Reads (a ++ andWord :: b) (.all [φ, ψ]) := by
  refine ⟨closesFrom_connect (fun _ => rfl) (by decide) ha.closed hb.closed, by simp,
    fun n hn => ?_⟩
  simp only [List.length_append, List.length_cons] at hn
  obtain ⟨m, rfl⟩ : ∃ m, n = m + 1 := ⟨n - 1, by omega⟩
  have hφ := ha.agrees (m + 1) (by omega)
  have hψ := hb.agrees (m + 1) (by omega)
  constructor
  · have hatoms := congr (congrArg (· ++ ·) hφ.1) hψ.1
    rw [readTo, splitOn_of_unsplitFrom hOrA, readTo, splitOn_of_unsplitFrom hOrB] at hatoms
    rw [readTo, splitOn_of_unsplitFrom (unsplitFrom_and ha.closed hOrA hOrB), List.map_singleton,
      splitOn_append (by decide) rfl ha.closed, List.map_append]
    simpa using hatoms
  · intro v
    rw [eval_readTo_and ha.closed hOrA hOrB, hφ.2, hψ.2]
    simp

/-! ## Parameters -/

theorem params_splitOn {separates : Token → Bool}
    (hs : ∀ {t}, separates t = true → value? t = none) (d : Nat) (ts : List Token) :
    (splitOn separates d ts).flatMap params = params ts := by
  induction ts generalizing d with
  | nil => rfl
  | cons t ts ih =>
    have hrest := ih (depth d t)
    simp only [splitOn]
    split
    · next h =>
      have ht : params (t :: ts) = params ts := List.filterMap_cons_none (hs h.2)
      rw [List.flatMap_cons, hrest, ht]
      rfl
    · cases hparts : splitOn separates (depth d t) ts with
      | nil => exact absurd hparts (splitOn_ne_nil separates _ ts)
      | cons p ps =>
        rw [hparts] at hrest
        rw [List.modifyHead_cons, List.flatMap_cons, params_cons t p, params_cons t ts, ← hrest,
          List.flatMap_cons, List.append_assoc]

theorem value?_of_isKeyword {keyword : String} {t : Token} (h : isKeyword keyword t = true) :
    value? t = none := by
  cases t with
  | value p => cases h
  | _ => rfl

theorem params_enclosed {ts us : List Token} (h : enclosed? ts = some us) :
    params us = params ts := by
  unfold enclosed? at h
  split at h
  · split at h
    · next hlast =>
      obtain ⟨ys, rfl⟩ := List.getLast?_eq_some_iff.mp hlast.1
      rw [List.dropLast_concat] at h
      cases h
      have hclosing : params [.closing] = [] := rfl
      rw [params_cons, params_append, hclosing, List.append_nil]
      rfl
    · cases h
  · cases h

/-- The atoms that a text is read as have its parameters, in its order. -/
theorem params_atoms_readTo (n : Nat) (ts : List Token) :
    (readTo n ts).atoms.flatMap params = params ts := by
  induction n generalizing ts with
  | zero => simp [readTo]
  | succ n ih =>
    have hmember : ∀ us, (readMember (readTo n) us).atoms.flatMap params = params us := by
      intro us
      unfold readMember
      split
      · next ws h => rw [ih, params_enclosed h]
      · simp
    have hpart : ∀ us, ((splitOn isAnd 0 us).map (readMember (readTo n))).flatMap
        (fun φ => φ.atoms.flatMap params) = params us := by
      intro us
      rw [List.flatMap_map, funext hmember]
      exact params_splitOn value?_of_isKeyword 0 us
    rw [readTo, Formula.atoms_any, List.flatMap_assoc, List.flatMap_map]
    simp only [Formula.atoms_all, List.flatMap_assoc]
    rw [funext hpart]
    exact params_splitOn value?_of_isKeyword 0 ts

/-- Reading a whole condition. -/
theorem Reads.read {ts : List Token} {φ : Formula (List Token)} (h : Reads ts φ) :
    (Token.read ts).Agrees φ := h.agrees ts.length (Nat.le_refl _)

-- AND binds tighter than OR, and parentheses group.
example : read (ofText "a OR b AND (c OR d)") =
    .any [.all [.atom (ofText "a")], .all [.atom (ofText "b"),
      .any [.all [.atom (ofText "c")], .all [.atom (ofText "d")]]]] := rfl

end IndexQuery.Token

import IndexQuery.Proofs.Reading.Reader
import Mathlib.Data.List.Basic

/-!
# Operands in a row

What a reader makes of operands with AND between them.  The atoms of the row are always those of the
operands, and no atom is lost.  If no OR stands open in an operand, each is one member of the
conjunction; an open OR splits the whole row, and if operands share no atoms the row then means
something else than their conjunction.

    Reads t φ for each operand → no OR stands open → Reads (row ts) (all φs)            (Reads.row)
    Reads t φ for each operand → (read (row ts)).atoms = (all φs).atoms                 (atoms_row)
    … → the conjunction holds → the row holds                                   (eval_row_of_all)
    … → no shared atoms → an open OR →
      ∃ v, the row holds and the conjunction does not                             (exists_row_ne)
-/

namespace IndexQuery.Token

/-! ## Algorithm -/

/-- A word for both or for one of two. -/
def isLink (t : Token) : Bool := isAnd t || isOr t

/-- Operands with AND between them. -/
def row (tss : List (List Token)) : List Token := [andWord].intercalate tss

/-! ## Depth of reading -/

theorem length_of_mem_splitOn {separates : Token → Bool} {d : Nat} {ts p : List Token}
    (h : p ∈ splitOn separates d ts) : p.length ≤ ts.length := by
  induction ts generalizing d p with
  | nil =>
    obtain rfl := List.mem_singleton.mp h
    exact Nat.le_refl _
  | cons t ts ih =>
    simp only [splitOn] at h
    split at h
    · rcases List.mem_cons.mp h with rfl | h
      · exact Nat.zero_le _
      · exact Nat.le_succ_of_le (ih h)
    · cases hparts : splitOn separates (depth d t) ts with
      | nil => exact absurd hparts (splitOn_ne_nil separates _ ts)
      | cons q qs =>
        rw [hparts, List.modifyHead_cons] at h
        rcases List.mem_cons.mp h with rfl | h
        · exact Nat.succ_le_succ (ih (hparts ▸ List.mem_cons_self))
        · exact Nat.le_succ_of_le (ih (hparts ▸ List.mem_cons_of_mem q h))

theorem length_enclosed {ts us : List Token} (h : enclosed? ts = some us) :
    ts.length = us.length + 2 := by
  unfold enclosed? at h
  split at h
  · split at h
    · next hlast =>
      obtain ⟨ys, rfl⟩ := List.getLast?_eq_some_iff.mp hlast.1
      rw [List.dropLast_concat] at h
      cases h
      simp
    · cases h
  · cases h

theorem readMember_congr {f g : List Token → Formula (List Token)} {ts : List Token}
    (h : ∀ us, us.length + 2 ≤ ts.length → f us = g us) : readMember f ts = readMember g ts := by
  unfold readMember
  split
  · next us hus => exact h us (Nat.le_of_eq (length_enclosed hus).symm)
  · rfl

/-- Reading to a greater depth than parentheses can reach changes nothing. -/
theorem readTo_succ_eq {n m : Nat} {ts : List Token} (hn : ts.length ≤ n + 1)
    (hm : ts.length ≤ m + 1) : readTo (n + 1) ts = readTo (m + 1) ts := by
  have henclosed : ∀ us : List Token, us.length + 2 ≤ ts.length → readTo n us = readTo m us := by
    intro us hus
    cases n with
    | zero => omega
    | succ n =>
      cases m with
      | zero => omega
      | succ m => exact readTo_succ_eq (by omega) (by omega)
  rw [readTo, readTo]
  congr 1
  apply List.map_congr_left
  intro part hpart
  congr 1
  apply List.map_congr_left
  intro member hmember
  have hlength := Nat.le_trans (length_of_mem_splitOn hmember) (length_of_mem_splitOn hpart)
  exact readMember_congr fun us hus => henclosed us (Nat.le_trans hus hlength)

/-- Tokens with closed parentheses are read as what they are read as. -/
theorem Reads.of_closed {ts : List Token} (hclosed : closesFrom 0 ts = true) (hne : ts ≠ []) :
    Reads ts (Token.read ts) := by
  refine ⟨hclosed, hne, fun n hn => ?_⟩
  obtain ⟨m, rfl⟩ := length_pos_of_ne_nil hne hn
  obtain ⟨k, hk⟩ := length_pos_of_ne_nil hne (Nat.le_refl ts.length)
  have heq : Token.read ts = readTo (m + 1) ts := by
    unfold Token.read
    rw [hk]
    exact readTo_succ_eq (Nat.le_of_eq hk) hn
  rw [heq]
  exact ⟨rfl, fun _ => rfl⟩

/-! ## Atoms between connectives -/

theorem isLink_of_isOr {o : Token} (ho : isOr o = true) : isLink o = true := by
  rw [isLink, ho, Bool.or_true]

theorem depth_of_isLink {o : Token} (ho : isLink o = true) : depth 0 o = 0 := by
  cases o with
  | word cs => rfl
  | _ => cases ho

/-- Splitting at words for OR and then at words for AND is splitting at both. -/
theorem splitOn_isLink (d : Nat) (ts : List Token) :
    ∃ p ps, splitOn isOr d ts = p :: ps ∧
      splitOn isLink d ts = splitOn isAnd d p ++ ps.flatMap (splitOn isAnd 0) := by
  induction ts generalizing d with
  | nil => exact ⟨[], [], rfl, rfl⟩
  | cons t ts ih =>
    obtain ⟨p, ps, hor, hlink⟩ := ih (depth d t)
    by_cases ht : d = 0 ∧ isOr t = true
    · obtain ⟨rfl, ht⟩ := ht
      have hdepth := depth_of_isLink (isLink_of_isOr ht)
      rw [hdepth] at hor hlink
      refine ⟨[], p :: ps, ?_, ?_⟩
      · simp [splitOn, ht, hdepth, hor]
      · simp [splitOn, isLink, ht, hdepth, hlink]
    · refine ⟨t :: p, ps, ?_, ?_⟩
      · simp only [splitOn, if_neg ht, hor, List.modifyHead_cons]
      · by_cases hand : d = 0 ∧ isAnd t = true
        · have hl : d = 0 ∧ isLink t = true := ⟨hand.1, by simp [isLink, hand.2]⟩
          simp only [splitOn, if_pos hand, if_pos hl, hlink, List.cons_append]
        · have hl : ¬(d = 0 ∧ isLink t = true) := by
            rintro ⟨rfl, h⟩
            simp only [isLink, Bool.or_eq_true] at h
            exact h.elim (fun h => hand ⟨rfl, h⟩) fun h => ht ⟨rfl, h⟩
          simp only [splitOn, if_neg hand, if_neg hl, hlink]
          cases hparts : splitOn isAnd (depth d t) p with
          | nil => exact absurd hparts (splitOn_ne_nil isAnd _ p)
          | cons q qs => rfl

theorem atoms_readTo (n : Nat) (ts : List Token) :
    (readTo (n + 1) ts).atoms =
      (splitOn isLink 0 ts).flatMap fun us => (readMember (readTo n) us).atoms := by
  obtain ⟨p, ps, hor, hlink⟩ := splitOn_isLink 0 ts
  rw [readTo, hor, hlink, Formula.atoms_any, List.map_cons, List.flatMap_cons, List.flatMap_append,
    List.flatMap_map, List.flatMap_assoc]
  simp only [Formula.atoms_all, List.flatMap_map]

/-- A connective outside parentheses stands between atoms. -/
theorem atoms_readTo_append {o : Token} (ho : isLink o = true) {a : List Token}
    (ha : closesFrom 0 a = true) (b : List Token) (n : Nat) :
    (readTo (n + 1) (a ++ o :: b)).atoms =
      (readTo (n + 1) a).atoms ++ (readTo (n + 1) b).atoms := by
  rw [atoms_readTo, splitOn_append ho (depth_of_isLink ho) ha, List.flatMap_append,
    ← atoms_readTo, ← atoms_readTo]

/-! ## Truth -/

/-- A word for one of two outside parentheses splits everything around it. -/
theorem eval_readTo_or {o : Token} (ho : isOr o = true) {a : List Token}
    (ha : closesFrom 0 a = true) (b : List Token) (n : Nat) (v : List Token → Bool) :
    (readTo (n + 1) (a ++ o :: b)).eval v =
      ((readTo (n + 1) a).eval v || (readTo (n + 1) b).eval v) := by
  have hdepth := depth_of_isLink (isLink_of_isOr ho)
  rw [readTo, splitOn_append ho hdepth ha, List.map_append, readTo, readTo, Formula.eval_any,
    Formula.eval_any, Formula.eval_any, List.any_append]

theorem all_eq_of_forall {α : Type} {l : List α} (hl : l ≠ []) {f : α → Bool} {x : Bool}
    (h : ∀ a ∈ l, f a = x) : l.all f = x := by
  cases x with
  | true => exact List.all_eq_true.mpr h
  | false =>
    obtain ⟨a, l, rfl⟩ := List.exists_cons_of_ne_nil hl
    rw [List.all_cons, h a List.mem_cons_self, Bool.false_and]

theorem any_eq_of_forall {α : Type} {l : List α} (hl : l ≠ []) {f : α → Bool} {x : Bool}
    (h : ∀ a ∈ l, f a = x) : l.any f = x := by
  cases x with
  | true =>
    obtain ⟨a, l, rfl⟩ := List.exists_cons_of_ne_nil hl
    rw [List.any_cons, h a List.mem_cons_self, Bool.true_or]
  | false => exact List.any_eq_false.mpr fun a ha => by rw [h a ha]; exact Bool.false_ne_true

/-- If all atoms are alike, the whole is as they are: no group that is read is empty. -/
theorem eval_readTo_of_atoms {v : List Token → Bool} {x : Bool} {n : Nat} {ts : List Token}
    (h : ∀ a ∈ (readTo n ts).atoms, v a = x) : (readTo n ts).eval v = x := by
  induction n generalizing ts with
  | zero =>
    rw [readTo, Formula.eval_atom]
    exact h ts (by simp [readTo])
  | succ n ih =>
    have hmember : ∀ part ∈ splitOn isOr 0 ts, ∀ us ∈ splitOn isAnd 0 part,
        (readMember (readTo n) us).eval v = x := by
      intro part hpart us hus
      have hatoms : ∀ a ∈ (readMember (readTo n) us).atoms, v a = x := by
        intro a ha
        apply h
        rw [readTo, Formula.atoms_any, List.flatMap_map]
        refine List.mem_flatMap.mpr ⟨part, hpart, ?_⟩
        rw [Formula.atoms_all, List.flatMap_map]
        exact List.mem_flatMap.mpr ⟨us, hus, ha⟩
      unfold readMember at hatoms ⊢
      split
      · next ws hws =>
        simp only [hws] at hatoms
        exact ih hatoms
      · next hws =>
        simp only [hws] at hatoms
        rw [Formula.eval_atom]
        exact hatoms us (by simp)
    rw [readTo, Formula.eval_any, List.any_map]
    refine any_eq_of_forall (splitOn_ne_nil isOr 0 ts) fun part hpart => ?_
    show (Formula.all _).eval v = x
    rw [Formula.eval_all, List.all_map]
    exact all_eq_of_forall (splitOn_ne_nil isAnd 0 part) (hmember part hpart)

/-! ## Open connectives -/

/-- The first open word for one of two, with what stands before and behind it. -/
theorem exists_or_of_open {d : Nat} {ts : List Token} (hclosed : closesFrom d ts = true)
    (h : unsplitFrom isOr d ts = false) :
    ∃ a o b, ts = a ++ o :: b ∧ isOr o = true ∧ closesFrom d a = true ∧
      unsplitFrom isOr d a = true := by
  induction ts generalizing d with
  | nil => cases h
  | cons t ts ih =>
    obtain ⟨ht, hclosed⟩ := closesFrom_cons hclosed
    by_cases hor : d = 0 ∧ isOr t = true
    · obtain ⟨rfl, hor⟩ := hor
      exact ⟨[], t, ts, rfl, hor, rfl, rfl⟩
    · have hsplit : (!(d == 0 && isOr t)) = true := by simpa [Decidable.imp_iff_not_or] using hor
      have hrest : unsplitFrom isOr (depth d t) ts = false := by
        rwa [unsplitFrom, hsplit, Bool.true_and] at h
      obtain ⟨a, o, b, rfl, ho, ha, hOr⟩ := ih hclosed hrest
      refine ⟨t :: a, o, b, rfl, ho, ?_, ?_⟩
      · rw [closesFrom, if_neg ht, ha]
      · rw [unsplitFrom, hsplit, hOr, Bool.true_and]

/-- What stands behind an open connective is closed if the whole is. -/
theorem closesFrom_of_connect {o : Token} (ho : isLink o = true) {a b : List Token}
    (ha : closesFrom 0 a = true) (h : closesFrom 0 (a ++ o :: b) = true) :
    closesFrom 0 b = true := by
  have happend := closesFrom_append ha 0 (o :: b)
  rw [Nat.add_zero] at happend
  rw [happend] at h
  have hrest := (closesFrom_cons h).2
  rwa [depth_of_isLink ho] at hrest

theorem unsplitFrom_append_eq (separates : Token → Bool) {d : Nat} {a : List Token}
    (ha : closesFrom d a = true) (b : List Token) :
    unsplitFrom separates d (a ++ b) =
      (unsplitFrom separates d a && unsplitFrom separates 0 b) := by
  induction a generalizing d with
  | nil =>
    obtain rfl : d = 0 := by simpa [closesFrom] using ha
    rfl
  | cons t a ih =>
    obtain ⟨-, ha⟩ := closesFrom_cons ha
    rw [List.cons_append, unsplitFrom, unsplitFrom, ih ha, Bool.and_assoc]

/-- With an open OR on its left side, a row holds if everything there does. -/
theorem eval_of_open_left {a : List Token} (ha : closesFrom 0 a = true)
    (hopen : unsplitFrom isOr 0 a = false) (b : List Token) {n : Nat} {v : List Token → Bool}
    (hv : ∀ t ∈ (readTo (n + 1) a).atoms, v t = true) :
    (readTo (n + 1) (a ++ andWord :: b)).eval v = true := by
  obtain ⟨x, o, y, rfl, ho, hx, -⟩ := exists_or_of_open ha hopen
  rw [atoms_readTo_append (isLink_of_isOr ho) hx] at hv
  have htrue : (readTo (n + 1) x).eval v = true :=
    eval_readTo_of_atoms fun t ht => hv t (List.mem_append_left _ ht)
  rw [List.append_assoc, List.cons_append, eval_readTo_or ho hx, htrue, Bool.true_or]

/-- With an open OR on its right side, a row holds if everything there does. -/
theorem eval_of_open_right {a b : List Token} (ha : closesFrom 0 a = true)
    (hb : closesFrom 0 b = true) (hopen : unsplitFrom isOr 0 b = false) {n : Nat}
    {v : List Token → Bool} (hv : ∀ t ∈ (readTo (n + 1) b).atoms, v t = true) :
    (readTo (n + 1) (a ++ andWord :: b)).eval v = true := by
  obtain ⟨x, o, y, rfl, ho, hx, -⟩ := exists_or_of_open hb hopen
  rw [atoms_readTo_append (isLink_of_isOr ho) hx] at hv
  have htrue : (readTo (n + 1) y).eval v = true :=
    eval_readTo_of_atoms fun t ht => hv t (List.mem_append_right _ ht)
  have hclosed : closesFrom 0 (a ++ andWord :: x) = true :=
    closesFrom_connect (fun _ => rfl) (by decide) ha hx
  rw [← List.cons_append, ← List.append_assoc, eval_readTo_or ho hclosed, htrue, Bool.or_true]

/-- Where both sides of an AND hold, so does the whole, whatever ORs stand open in it. -/
theorem eval_readTo_and_of_eval {n : Nat} {v : List Token → Bool} {a b : List Token}
    (hca : closesFrom 0 a = true) (hcb : closesFrom 0 b = true)
    (ha : (readTo (n + 1) a).eval v = true) (hb : (readTo (n + 1) b).eval v = true) :
    (readTo (n + 1) (a ++ andWord :: b)).eval v = true := by
  -- the induction drops the part of `a` before its first open OR
  induction hlength : a.length using Nat.strongRecOn generalizing a with
  | _ k ih =>
    by_cases hOrA : unsplitFrom isOr 0 a = true
    · by_cases hOrB : unsplitFrom isOr 0 b = true
      · rw [eval_readTo_and hca hOrA hOrB, ha, hb, Bool.true_and]
      · obtain ⟨x, o, y, rfl, ho, hx, hOrX⟩ := exists_or_of_open hcb (eq_false_of_ne_true hOrB)
        have hclosed : closesFrom 0 (a ++ andWord :: x) = true :=
          closesFrom_connect (fun _ => rfl) (by decide) hca hx
        rw [eval_readTo_or ho hx] at hb
        rw [← List.cons_append, ← List.append_assoc, eval_readTo_or ho hclosed,
          eval_readTo_and hca hOrA hOrX, ha, Bool.true_and, hb]
    · obtain ⟨x, o, y, rfl, ho, hx, -⟩ := exists_or_of_open hca (eq_false_of_ne_true hOrA)
      have hy := closesFrom_of_connect (isLink_of_isOr ho) hx hca
      have hshorter : y.length < k := by
        rw [← hlength, List.length_append, List.length_cons]
        omega
      rw [eval_readTo_or ho hx, Bool.or_eq_true] at ha
      rw [List.append_assoc, List.cons_append, eval_readTo_or ho hx, Bool.or_eq_true]
      exact ha.imp_right fun ha => ih y.length hshorter hy ha rfl

/-! ## Rows -/

theorem row_cons (a b : List Token) (tss : List (List Token)) :
    row (a :: b :: tss) = a ++ andWord :: row (b :: tss) := by
  unfold row
  rw [List.intercalate_cons_cons, List.append_assoc]
  rfl

theorem row_singleton (a : List Token) : row [a] = a := List.intercalate_singleton

theorem row_append {tss uss : List (List Token)} (ht : tss ≠ []) (hu : uss ≠ []) :
    row (tss ++ uss) = row tss ++ andWord :: row uss := by
  induction tss with
  | nil => exact absurd rfl ht
  | cons a tss ih =>
    cases tss with
    | nil =>
      obtain ⟨b, uss, rfl⟩ := List.exists_cons_of_ne_nil hu
      rw [List.singleton_append, row_cons, row_singleton]
    | cons b tss =>
      have hrest := ih (List.cons_ne_nil b tss)
      rw [List.cons_append] at hrest
      rw [List.cons_append, List.cons_append, row_cons, row_cons, hrest, List.append_assoc,
        List.cons_append]

theorem length_le_row {tss : List (List Token)} {ts : List Token} (h : ts ∈ tss) :
    ts.length ≤ (row tss).length := by
  induction tss with
  | nil => cases h
  | cons a tss ih =>
    cases tss with
    | nil =>
      obtain rfl := List.mem_singleton.mp h
      exact Nat.le_of_eq (congrArg List.length (row_singleton ts).symm)
    | cons b tss =>
      rw [row_cons, List.length_append, List.length_cons]
      rcases List.mem_cons.mp h with rfl | h
      · exact Nat.le_add_right _ _
      · have hrest := ih h
        omega

theorem closed_row {tss : List (List Token)} (h : ∀ ts ∈ tss, closesFrom 0 ts = true) :
    closesFrom 0 (row tss) = true := by
  induction tss with
  | nil => rfl
  | cons a tss ih =>
    have ha := h a List.mem_cons_self
    have hrest := ih fun ts hts => h ts (List.mem_cons_of_mem a hts)
    cases tss with
    | nil => rwa [row_singleton]
    | cons b tss =>
      rw [row_cons]
      exact closesFrom_connect (fun _ => rfl) (by decide) ha hrest

/-- An OR stands open in a row if it does in one of the operands. -/
theorem unsplitFrom_row {tss : List (List Token)} (h : ∀ ts ∈ tss, closesFrom 0 ts = true) :
    unsplitFrom isOr 0 (row tss) = tss.all (unsplitFrom isOr 0) := by
  induction tss with
  | nil => rfl
  | cons a tss ih =>
    have hrest := ih fun ts hts => h ts (List.mem_cons_of_mem a hts)
    cases tss with
    | nil => rw [row_singleton, List.all_cons, List.all_nil, Bool.and_true]
    | cons b tss =>
      have hword : unsplitFrom isOr 0 (andWord :: row (b :: tss)) =
          unsplitFrom isOr 0 (row (b :: tss)) := rfl
      rw [row_cons, unsplitFrom_append_eq isOr (h a List.mem_cons_self), hword, hrest]
      rfl

theorem atoms_readTo_row {tss : List (List Token)} (h : ∀ ts ∈ tss, closesFrom 0 ts = true)
    (hne : tss ≠ []) (n : Nat) :
    (readTo (n + 1) (row tss)).atoms = tss.flatMap fun ts => (readTo (n + 1) ts).atoms := by
  induction tss with
  | nil => exact absurd rfl hne
  | cons a tss ih =>
    cases tss with
    | nil => rw [row_singleton, List.flatMap_singleton]
    | cons b tss =>
      have hrest := ih (fun ts hts => h ts (List.mem_cons_of_mem a hts)) (List.cons_ne_nil b tss)
      rw [row_cons, atoms_readTo_append (by decide) (h a List.mem_cons_self), hrest]
      rfl

theorem eval_readTo_row_of_forall {tss : List (List Token)}
    (h : ∀ ts ∈ tss, closesFrom 0 ts = true) (hne : tss ≠ []) {n : Nat} {v : List Token → Bool}
    (hv : ∀ ts ∈ tss, (readTo (n + 1) ts).eval v = true) :
    (readTo (n + 1) (row tss)).eval v = true := by
  induction tss with
  | nil => exact absurd rfl hne
  | cons a tss ih =>
    have hclosed := h a List.mem_cons_self
    have ha := hv a List.mem_cons_self
    have hrest : ∀ ts ∈ tss, closesFrom 0 ts = true := fun ts hts =>
      h ts (List.mem_cons_of_mem a hts)
    cases tss with
    | nil => rwa [row_singleton]
    | cons b tss =>
      have hb := ih hrest (List.cons_ne_nil b tss) fun ts hts => hv ts (List.mem_cons_of_mem a hts)
      rw [row_cons]
      exact eval_readTo_and_of_eval hclosed (closed_row hrest) ha hb

/-! ## Operands with their formulas -/

section

variable {os : List (List Token × Formula (List Token))}

/-- Operands in which no OR stands open are the members of a conjunction. -/
theorem Reads.row (h : ∀ o ∈ os, Reads o.1 o.2) (hne : os ≠ [])
    (hOr : ∀ o ∈ os, unsplitFrom isOr 0 o.1 = true) :
    Reads (row (os.map Prod.fst)) (.all (os.map Prod.snd)) := by
  induction os with
  | nil => exact absurd rfl hne
  | cons o os ih =>
    have ho := h o List.mem_cons_self
    have hopen := hOr o List.mem_cons_self
    cases os with
    | nil =>
      rw [List.map_singleton, List.map_singleton, row_singleton]
      exact ho.of_agrees ⟨by simp, fun v => by simp⟩
    | cons p os =>
      have hrest := ih (fun q hq => h q (List.mem_cons_of_mem o hq)) (List.cons_ne_nil p os)
        fun q hq => hOr q (List.mem_cons_of_mem o hq)
      have hclosed : ∀ ts ∈ (p :: os).map Prod.fst, closesFrom 0 ts = true := by
        intro ts hts
        obtain ⟨q, hq, rfl⟩ := List.mem_map.mp hts
        exact (h q (List.mem_cons_of_mem o hq)).closed
      have hunsplit : unsplitFrom isOr 0 (Token.row ((p :: os).map Prod.fst)) = true := by
        rw [unsplitFrom_row hclosed, List.all_map]
        exact List.all_eq_true.mpr fun q hq => hOr q (List.mem_cons_of_mem o hq)
      have hand := ho.and hrest hopen hunsplit
      rw [List.map_cons, List.map_cons, row_cons]
      exact hand.of_agrees ⟨by simp, fun v => by simp⟩

/-- A single operand is the whole row, with its ORs. -/
theorem Reads.row_of_single_or (h : ∀ o ∈ os, Reads o.1 o.2) (hne : os ≠ [])
    (hOr : os.length = 1 ∨ ∀ o ∈ os, unsplitFrom isOr 0 o.1 = true) :
    Reads (Token.row (os.map Prod.fst)) (.all (os.map Prod.snd)) := by
  rcases hOr with hlength | hOr
  · obtain ⟨o, rfl⟩ := List.length_eq_one_iff.mp hlength
    rw [List.map_singleton, List.map_singleton, row_singleton]
    exact (h o (List.mem_singleton_self o)).of_agrees ⟨by simp, fun v => by simp⟩
  · exact Reads.row h hne hOr

theorem ne_nil_row (h : ∀ o ∈ os, Reads o.1 o.2) (hne : os ≠ []) :
    Token.row (os.map Prod.fst) ≠ [] := by
  obtain ⟨o, os, rfl⟩ := List.exists_cons_of_ne_nil hne
  have ho := (h o List.mem_cons_self).nonempty
  cases os with
  | nil => rwa [List.map_singleton, row_singleton]
  | cons p os =>
    rw [List.map_cons, List.map_cons, row_cons]
    exact fun hnil => ho (List.append_eq_nil_iff.mp hnil).1

theorem closed_of_reads (h : ∀ o ∈ os, Reads o.1 o.2) :
    ∀ ts ∈ os.map Prod.fst, closesFrom 0 ts = true := by
  intro ts hts
  obtain ⟨o, ho, rfl⟩ := List.mem_map.mp hts
  exact (h o ho).closed

/-- Read to a depth that suffices for the row, every operand is read as its formula. -/
theorem exists_readTo_row (h : ∀ o ∈ os, Reads o.1 o.2) (hne : os ≠ []) :
    ∃ n, Token.read (Token.row (os.map Prod.fst)) = readTo (n + 1) (Token.row (os.map Prod.fst)) ∧
      ∀ o ∈ os, (readTo (n + 1) o.1).Agrees o.2 := by
  obtain ⟨n, hn⟩ := length_pos_of_ne_nil (ne_nil_row h hne) (Nat.le_refl _)
  refine ⟨n, by rw [← hn]; rfl, fun o ho => (h o ho).agrees (n + 1) ?_⟩
  rw [← hn]
  exact length_le_row (List.mem_map_of_mem ho)

theorem atoms_readTo_operands (h : ∀ o ∈ os, Reads o.1 o.2) (hne : os ≠ []) {n : Nat}
    (hn : ∀ o ∈ os, (readTo (n + 1) o.1).Agrees o.2) :
    (readTo (n + 1) (Token.row (os.map Prod.fst))).atoms = os.flatMap fun o => o.2.atoms := by
  rw [atoms_readTo_row (closed_of_reads h) (by simpa using hne), List.flatMap_map]
  exact List.flatMap_congr fun o ho => (hn o ho).1

/-- No atom of an operand is lost, whatever connectives stand open. -/
theorem atoms_row (h : ∀ o ∈ os, Reads o.1 o.2) (hne : os ≠ []) :
    (Token.read (Token.row (os.map Prod.fst))).atoms =
      (Formula.all (os.map Prod.snd)).atoms := by
  obtain ⟨n, hread, hn⟩ := exists_readTo_row h hne
  rw [hread, atoms_readTo_operands h hne hn, Formula.atoms_all, List.flatMap_map]

/-- Where all operands hold, so does the row, whatever ORs stand open in them. -/
theorem eval_row_of_all (h : ∀ o ∈ os, Reads o.1 o.2) (hne : os ≠ []) {v : List Token → Bool}
    (hv : (Formula.all (os.map Prod.snd)).eval v = true) :
    (Token.read (Token.row (os.map Prod.fst))).eval v = true := by
  obtain ⟨n, hread, hn⟩ := exists_readTo_row h hne
  rw [hread]
  refine eval_readTo_row_of_forall (closed_of_reads h) (by simpa using hne) fun ts hts => ?_
  obtain ⟨o, ho, rfl⟩ := List.mem_map.mp hts
  rw [(hn o ho).2]
  rw [Formula.eval_all, List.all_map] at hv
  exact List.all_eq_true.mp hv o ho

/-- An operand whose atoms are false is false, and so is a conjunction with it. -/
theorem eval_all_of_false {o : List Token × Formula (List Token)} (ho : o ∈ os) {n : Nat}
    (hn : (readTo n o.1).Agrees o.2) {v : List Token → Bool} (hv : ∀ t ∈ o.2.atoms, v t = false) :
    (Formula.all (os.map Prod.snd)).eval v = false := by
  have hfalse : o.2.eval v = false := by
    rw [← hn.2 v]
    exact eval_readTo_of_atoms fun t ht => hv t (hn.1 ▸ ht)
  rw [Formula.eval_all, List.all_map]
  exact List.all_eq_false.mpr ⟨o, ho, by simp [hfalse]⟩

theorem unsplitFrom_operands (h : ∀ o ∈ os, Reads o.1 o.2)
    (hopen : ∃ o ∈ os, unsplitFrom isOr 0 o.1 = false) :
    unsplitFrom isOr 0 (Token.row (os.map Prod.fst)) = false := by
  obtain ⟨o, ho, hopen⟩ := hopen
  rw [unsplitFrom_row (closed_of_reads h), List.all_map]
  exact List.all_eq_false.mpr ⟨o, ho, by simp [hopen]⟩

/-- On two sides that share no atoms, an open OR on one of them lets the row hold by that side
alone. -/
theorem exists_row_ne_of_append {as bs : List (List Token × Formula (List Token))} (ha : as ≠ [])
    (hb : bs ≠ []) (h : ∀ o ∈ as ++ bs, Reads o.1 o.2)
    (hdisjoint : ∀ o ∈ as, ∀ p ∈ bs, List.Disjoint o.2.atoms p.2.atoms)
    (hopen : (∃ o ∈ as, unsplitFrom isOr 0 o.1 = false) ∨
      ∃ o ∈ bs, unsplitFrom isOr 0 o.1 = false) :
    ∃ v, (Token.read (Token.row ((as ++ bs).map Prod.fst))).eval v = true ∧
      (Formula.all ((as ++ bs).map Prod.snd)).eval v = false := by
  have hra : ∀ o ∈ as, Reads o.1 o.2 := fun o ho => h o (List.mem_append_left bs ho)
  have hrb : ∀ o ∈ bs, Reads o.1 o.2 := fun o ho => h o (List.mem_append_right as ho)
  have hca := closed_row (closed_of_reads hra)
  have hcb := closed_row (closed_of_reads hrb)
  obtain ⟨n, hread, hn⟩ := exists_readTo_row h fun hnil => ha (List.append_eq_nil_iff.mp hnil).1
  have hatomsA := atoms_readTo_operands hra ha fun o ho => hn o (List.mem_append_left bs ho)
  have hatomsB := atoms_readTo_operands hrb hb fun o ho => hn o (List.mem_append_right as ho)
  have hrow : Token.row ((as ++ bs).map Prod.fst) =
      Token.row (as.map Prod.fst) ++ andWord :: Token.row (bs.map Prod.fst) := by
    rw [List.map_append, row_append (by simpa using ha) (by simpa using hb)]
  rw [hread, hrow]
  rcases hopen with hopen | hopen
  · refine ⟨fun t => decide (t ∈ as.flatMap fun o => o.2.atoms), ?_, ?_⟩
    · refine eval_of_open_left hca (unsplitFrom_operands hra hopen) _ fun t ht => ?_
      exact decide_eq_true (hatomsA ▸ ht)
    · obtain ⟨p, hp⟩ := List.exists_mem_of_ne_nil bs hb
      have hmem := List.mem_append_right as hp
      refine eval_all_of_false hmem (hn p hmem) fun t ht => decide_eq_false fun hs => ?_
      obtain ⟨o, ho, hto⟩ := List.mem_flatMap.mp hs
      exact hdisjoint o ho p hp hto ht
  · refine ⟨fun t => decide (t ∈ bs.flatMap fun o => o.2.atoms), ?_, ?_⟩
    · refine eval_of_open_right hca hcb (unsplitFrom_operands hrb hopen) fun t ht => ?_
      exact decide_eq_true (hatomsB ▸ ht)
    · obtain ⟨o, ho⟩ := List.exists_mem_of_ne_nil as ha
      have hmem := List.mem_append_left bs ho
      refine eval_all_of_false hmem (hn o hmem) fun t ht => decide_eq_false fun hs => ?_
      obtain ⟨p, hp, htp⟩ := List.mem_flatMap.mp hs
      exact hdisjoint o ho p hp ht htp

/-- Where operands share no atoms, a row of two or more with an open OR is not their conjunction. -/
theorem exists_row_ne (h : ∀ o ∈ os, Reads o.1 o.2) (hlength : 1 < os.length)
    (hdisjoint : os.Pairwise fun o p => List.Disjoint o.2.atoms p.2.atoms)
    (hopen : ∃ o ∈ os, unsplitFrom isOr 0 o.1 = false) :
    ∃ v, (Token.read (Token.row (os.map Prod.fst))).eval v = true ∧
      (Formula.all (os.map Prod.snd)).eval v = false := by
  obtain ⟨o, ho, hopen⟩ := hopen
  obtain ⟨as, bs, rfl⟩ := List.append_of_mem ho
  cases bs with
  | nil =>
    have ha : as ≠ [] := by
      rintro rfl
      exact absurd hlength (by simp)
    exact exists_row_ne_of_append ha (List.cons_ne_nil o []) h
      (List.pairwise_append.mp hdisjoint).2.2 (.inr ⟨o, List.mem_singleton_self o, hopen⟩)
  | cons p bs =>
    have hassoc : as ++ o :: p :: bs = (as ++ [o]) ++ p :: bs := by simp
    rw [hassoc] at h hdisjoint ⊢
    exact exists_row_ne_of_append (by simp) (List.cons_ne_nil p bs) h
      (List.pairwise_append.mp hdisjoint).2.2 (.inl ⟨o, by simp, hopen⟩)

end

end IndexQuery.Token

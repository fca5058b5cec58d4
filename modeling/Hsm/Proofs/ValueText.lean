import Hsm.Proofs.Reading
import Hsm.Chart.Basic
import Hsm.Json.Library
/-! Values read back from their text. A value is plain when JSON text carries it exactly, and the
host's reader, given as many levels as the value nests, reads a plain value back from its text. -/
namespace Hsm.Json
open Reader

/-! ### Values -/

/-- Whether keys strictly increase along a field list. -/
def keysOrdered? : (fs : List (String × Value)) → Decidable (Value.KeysOrdered fs)
  | [] => isTrue trivial
  | [_] => isTrue trivial
  | (k, _) :: (l, w) :: rest =>
    match keysOrdered? ((l, w) :: rest) with
    | isTrue h => if hk : k < l then isTrue ⟨hk, h⟩ else isFalse fun h' => hk h'.1
    | isFalse h => isFalse fun h' => h h'.2

instance (fs : List (String × Value)) : Decidable (Value.KeysOrdered fs) := keysOrdered? fs

namespace Value

/-- A value that JSON text carries exactly: it holds no binary64 number, each integer lies in the
range of its class, and the keys of each object strictly increase. -/
def plain : Value → Bool
  | .null => true
  | .bool _ => true
  | .num (.nat n) => decide (n ≤ u64Bound)
  | .num (.neg i) => decide (-2 ^ 63 ≤ i ∧ i < 0)
  | .num (.float _) => false
  | .str _ => true
  | .arr xs => plainItems xs
  | .obj fs => decide (KeysOrdered fs) && plainFields fs
where
  plainItems : List Value → Bool
    | [] => true
    | x :: xs => plain x && plainItems xs
  plainFields : List (String × Value) → Bool
    | [] => true
    | (_, x) :: fs => plain x && plainFields fs

theorem depth_le_depthItems {xs : List Value} {x : Value} (hx : x ∈ xs) :
    x.depth ≤ depth.depthItems xs := by
  induction xs with
  | nil => cases hx
  | cons y ys ih =>
    rcases List.mem_cons.1 hx with rfl | hx
    · exact Nat.le_max_left _ _
    · exact Nat.le_trans (ih hx) (Nat.le_max_right _ _)

theorem depth_le_depthFields {fs : List (String × Value)} {k : String} {x : Value} (hx : (k, x) ∈ fs) :
    x.depth ≤ depth.depthFields fs := by
  induction fs with
  | nil => cases hx
  | cons f fs ih =>
    obtain ⟨l, y⟩ := f
    rcases List.mem_cons.1 hx with h | hx
    · cases h; exact Nat.le_max_left _ _
    · exact Nat.le_trans (ih hx) (Nat.le_max_right _ _)

theorem plain_of_plainItems {xs : List Value} (h : plain.plainItems xs = true) {x : Value} (hx : x ∈ xs) :
    x.plain = true := by
  induction xs with
  | nil => cases hx
  | cons y ys ih =>
    simp only [plain.plainItems, Bool.and_eq_true] at h
    rcases List.mem_cons.1 hx with rfl | hx
    · exact h.1
    · exact ih h.2 hx

theorem plain_of_plainFields {fs : List (String × Value)} (h : plain.plainFields fs = true) {k : String}
    {x : Value} (hx : (k, x) ∈ fs) : x.plain = true := by
  induction fs with
  | nil => cases hx
  | cons f fs ih =>
    obtain ⟨l, y⟩ := f
    simp only [plain.plainFields, Bool.and_eq_true] at h
    rcases List.mem_cons.1 hx with hf | hx
    · cases hf; exact h.1
    · exact ih h.2 hx

theorem insertField_of_lt {key : String} {v : Value} {fs : List (String × Value)}
    (h : ∀ kv ∈ fs, kv.1 < key) : insertField key v fs = fs ++ [(key, v)] := by
  induction fs with
  | nil => rfl
  | cons kw fs ih =>
    obtain ⟨k, w⟩ := kw
    have hk : k < key := h (k, w) List.mem_cons_self
    unfold insertField
    have hne : key ≠ k := fun e => String.lt_irrefl k (e ▸ hk)
    rw [if_neg (String.lt_asymm hk), if_neg hne,
      ih fun kv hkv => h kv (List.mem_cons_of_mem _ hkv)]
    rfl

/-- In an ordered field list every key before a field is below its key. -/
theorem lt_of_keysOrdered {p : List (String × Value)} {k : String} {v : Value} {q : List (String × Value)}
    (h : KeysOrdered (p ++ (k, v) :: q)) : ∀ kv ∈ p, kv.1 < k := by
  induction p with
  | nil => intro _ h; cases h
  | cons a p ih =>
    obtain ⟨a, b⟩ := a
    intro kv hkv
    match p, h with
    | [], h =>
      rcases List.mem_singleton.1 hkv with rfl
      exact h.1
    | c :: p', h =>
      have hrest := ih h.2
      rcases List.mem_cons.1 hkv with rfl | hkv
      · exact String.lt_trans h.1 (hrest c List.mem_cons_self)
      · exact hrest kv hkv

theorem foldl_insertField_of_keysOrdered {p q : List (String × Value)} (h : KeysOrdered (p ++ q)) :
    q.foldl (fun acc kv => insertField kv.1 kv.2 acc) p = p ++ q := by
  induction q generalizing p with
  | nil => simp
  | cons kv q ih =>
    obtain ⟨k, v⟩ := kv
    rw [List.foldl_cons, insertField_of_lt (lt_of_keysOrdered h)]
    simpa using ih (p := p ++ [(k, v)]) (by simpa using h)

end Value

/-! ### Written values -/

namespace Value

def commaItems (xs : List Value) : List Char := xs.flatMap fun y => ',' :: (render y).toList

def fieldText (kv : String × Value) : List Char := (quote kv.1).toList ++ ':' :: (render kv.2).toList

def commaFields (fs : List (String × Value)) : List Char := fs.flatMap fun kv => ',' :: fieldText kv

theorem commaItems_cons (x : Value) (xs : List Value) :
    commaItems (x :: xs) = ',' :: ((render x).toList ++ commaItems xs) := by
  simp [commaItems]

theorem commaFields_cons (kv : String × Value) (fs : List (String × Value)) :
    commaFields (kv :: fs) = ',' :: (fieldText kv ++ commaFields fs) := by
  simp [commaFields]

theorem renderItems_cons (x : Value) (xs : List Value) :
    (render.renderItems (x :: xs)).toList = (render x).toList ++ commaItems xs := by
  induction xs generalizing x with
  | nil => simp [render.renderItems, commaItems]
  | cons y ys ih =>
    rw [render.renderItems.eq_3 _ _ (List.cons_ne_nil _ _), String.toList_append,
      String.toList_append, ih]
    simp [commaItems]

theorem renderFields_cons (kv : String × Value) (fs : List (String × Value)) :
    (render.renderFields (kv :: fs)).toList = fieldText kv ++ commaFields fs := by
  induction fs generalizing kv with
  | nil => obtain ⟨k, x⟩ := kv; simp [render.renderFields, commaFields, fieldText]
  | cons f fs ih =>
    obtain ⟨k, x⟩ := kv
    obtain ⟨l, y⟩ := f
    rw [render.renderFields.eq_3 _ _ _ (List.cons_ne_nil _ _), String.toList_append,
      String.toList_append, String.toList_append, String.toList_append, ih]
    simp [commaFields, fieldText]

theorem isDigit_ne {d : Char} (h : d.isDigit = true) :
    d ≠ 'n' ∧ d ≠ 't' ∧ d ≠ 'f' ∧ d ≠ '-' ∧ d ≠ '"' ∧ d ≠ '[' ∧ d ≠ '{' := by
  refine ⟨?_, ?_, ?_, ?_, ?_, ?_, ?_⟩ <;> rintro rfl <;> simp at h

theorem opens_of_isDigit {d : Char} (h : d.isDigit = true) (cs : List Char) : Opens (d :: cs) := by
  refine ⟨?_, ?_, ?_, ?_⟩
  · rintro (rfl | rfl | rfl | rfl) <;> simp at h
  all_goals rintro rfl; simp at h

/-- A plain value is written starting with a character that opens a value. -/
theorem opens_render {v : Value} (hv : v.plain = true) : Opens (render v).toList := by
  cases v with
  | null => simp [render, Opens, Unblank]
  | bool b => cases b <;> simp [render, Opens, Unblank]
  | num n =>
    cases n with
    | nat n =>
      obtain ⟨d, ds, hds, -⟩ : ∃ d ds, Nat.toDigits 10 n = d :: ds ∧ True :=
        ⟨_, _, (List.cons_head_tail Nat.toDigits_ne_nil).symm, trivial⟩
      have hd : d.isDigit = true :=
        Nat.isDigit_of_mem_toDigits (b := 10) (by decide) (by decide)
          (by rw [hds]; exact List.mem_cons_self)
      simpa [render, Number.render, hds] using opens_of_isDigit hd ds
    | neg i =>
      have : toString i = "-" ++ toString i.natAbs := by
        cases i with
        | ofNat m => simp [plain] at hv; omega
        | negSucc m => rfl
      simp [render, Number.render, this, Opens, Unblank]
    | float f => simp [plain] at hv
  | str s => simp [render, quote_toList, Opens, Unblank]
  | arr xs => simp [render, Opens, Unblank]
  | obj fs => simp [render, Opens, Unblank]

end Value

section Containers
open Value
variable {item : Reader Value}

theorem reads_items_comma {xs : List Value}
    (hitem : ∀ x ∈ xs, ∀ rest, Closes rest → Reads item (render x).toList rest x)
    (hopen : ∀ x ∈ xs, Opens (render x).toList) (fuel : Nat) (hfuel : xs.length < fuel)
    (acc : List Value) (rest : List Char) :
    Reads (Reader.items item fuel false acc) (commaItems xs) (']' :: rest) (acc.reverse ++ xs) := by
  induction xs generalizing fuel acc with
  | nil =>
    obtain ⟨fuel, rfl⟩ : ∃ f, fuel = f + 1 := ⟨fuel - 1, by simp at hfuel; omega⟩
    unfold Reader.items
    refine Reads.bind_nil (reads_moreItems_close false rest) ?_
    simpa [commaItems] using reads_pure acc.reverse (']' :: rest)
  | cons x xs ih =>
    obtain ⟨fuel, rfl⟩ : ∃ f, fuel = f + 1 := ⟨fuel - 1, by simp at hfuel; omega⟩
    unfold Reader.items
    rw [commaItems_cons]
    refine Reads.bind (s := [',']) (t := (render x).toList ++ commaItems xs)
      (reads_moreItems_comma (by simpa using (hopen x List.mem_cons_self).append (commaItems xs ++ ']' :: rest))) ?_
    simp only [if_true]
    refine Reads.bind (hitem x List.mem_cons_self _ ?_) ?_
    · cases xs <;> simp [Closes, commaItems]
    · simpa using ih (fun y hy => hitem y (List.mem_cons_of_mem x hy))
        (fun y hy => hopen y (List.mem_cons_of_mem x hy)) fuel (by simp at hfuel; omega) (x :: acc)

theorem reads_items {xs : List Value}
    (hitem : ∀ x ∈ xs, ∀ rest, Closes rest → Reads item (render x).toList rest x)
    (hopen : ∀ x ∈ xs, Opens (render x).toList) (fuel : Nat) (hfuel : xs.length < fuel)
    (rest : List Char) :
    Reads (Reader.items item fuel true []) (render.renderItems xs).toList (']' :: rest) xs := by
  obtain ⟨fuel, rfl⟩ : ∃ f, fuel = f + 1 := ⟨fuel - 1, by omega⟩
  unfold Reader.items
  cases xs with
  | nil =>
    refine Reads.bind_nil (reads_moreItems_close true rest) ?_
    simpa [render.renderItems] using reads_pure ([] : List Value) (']' :: rest)
  | cons x xs =>
    rw [renderItems_cons]
    refine Reads.bind_nil (reads_moreItems_first (by
      simpa using (hopen x List.mem_cons_self).append (commaItems xs ++ ']' :: rest))) ?_
    simp only [if_true]
    refine Reads.bind (hitem x List.mem_cons_self _ ?_) ?_
    · cases xs <;> simp [Closes, commaItems]
    · simpa using reads_items_comma (fun y hy => hitem y (List.mem_cons_of_mem x hy))
        (fun y hy => hopen y (List.mem_cons_of_mem x hy)) fuel (by simp at hfuel; omega) [x] rest

def insertAll (acc fs : List (String × Value)) : List (String × Value) :=
  fs.foldl (fun acc kv => insertField kv.1 kv.2 acc) acc

theorem closes_commaFields (fs : List (String × Value)) (rest : List Char) :
    Closes (commaFields fs ++ '}' :: rest) := by
  cases fs <;> simp [Closes, commaFields]

theorem reads_fields_comma {fs : List (String × Value)}
    (hitem : ∀ kv ∈ fs, ∀ rest, Closes rest → Reads item (render kv.2).toList rest kv.2)
    (fuel : Nat) (hfuel : fs.length < fuel) (acc : List (String × Value)) (rest : List Char) :
    Reads (Reader.fields item fuel false acc) (commaFields fs) ('}' :: rest) (insertAll acc fs) := by
  induction fs generalizing fuel acc with
  | nil =>
    obtain ⟨fuel, rfl⟩ : ∃ f, fuel = f + 1 := ⟨fuel - 1, by simp at hfuel; omega⟩
    unfold Reader.fields
    refine Reads.bind_nil (reads_nextKey_close false rest) ?_
    simpa [commaFields, insertAll] using reads_pure acc ('}' :: rest)
  | cons kv fs ih =>
    obtain ⟨k, x⟩ := kv
    obtain ⟨fuel, rfl⟩ : ∃ f, fuel = f + 1 := ⟨fuel - 1, by simp at hfuel; omega⟩
    unfold Reader.fields
    rw [commaFields_cons, fieldText]
    simp only [List.append_assoc, List.cons_append]
    show Reads _ ((',' :: (quote k).toList) ++ ':' :: ((render x).toList ++ commaFields fs)) _ _
    refine Reads.bind (reads_nextKey_comma k _) ?_
    refine Reads.bind (s := [':']) (reads_colon _) ?_
    refine Reads.bind (hitem (k, x) List.mem_cons_self _ (closes_commaFields fs rest)) ?_
    simpa [insertAll] using ih (fun kv hkv => hitem kv (List.mem_cons_of_mem _ hkv)) fuel
      (by simp at hfuel; omega) (insertField k x acc)

theorem reads_fields {fs : List (String × Value)}
    (hitem : ∀ kv ∈ fs, ∀ rest, Closes rest → Reads item (render kv.2).toList rest kv.2)
    (fuel : Nat) (hfuel : fs.length < fuel) (rest : List Char) :
    Reads (Reader.fields item fuel true []) (render.renderFields fs).toList ('}' :: rest) (insertAll [] fs) := by
  obtain ⟨fuel, rfl⟩ : ∃ f, fuel = f + 1 := ⟨fuel - 1, by omega⟩
  unfold Reader.fields
  cases fs with
  | nil =>
    refine Reads.bind_nil (reads_nextKey_close true rest) ?_
    simpa [render.renderFields, insertAll] using reads_pure ([] : List (String × Value)) ('}' :: rest)
  | cons kv fs =>
    obtain ⟨k, x⟩ := kv
    rw [renderFields_cons, fieldText]
    simp only [List.append_assoc, List.cons_append]
    show Reads _ ((quote k).toList ++ ':' :: ((render x).toList ++ commaFields fs)) _ _
    refine Reads.bind (reads_nextKey_first k _) ?_
    refine Reads.bind (s := [':']) (reads_colon _) ?_
    refine Reads.bind (hitem (k, x) List.mem_cons_self _ (closes_commaFields fs rest)) ?_
    simpa [insertAll] using reads_fields_comma (fun kv hkv => hitem kv (List.mem_cons_of_mem _ hkv))
      fuel (by simp at hfuel; omega) (insertField k x []) rest

theorem reads_keyword {kw : List Char} {c : Char} {v : Value} (rest : List Char) :
    Reads (bump >>= fun _ => ident kw >>= fun _ => pure v) (c :: kw) rest v :=
  Reads.bind (s := [c]) (reads_bump c _) (Reads.bind_end (reads_ident kw rest) (reads_pure v rest))

theorem reads_value_null (depth : Nat) (rest : List Char) :
    Reads (value (depth + 1)) (render .null).toList rest .null := by
  have hr : (render .null).toList = ['n', 'u', 'l', 'l'] := rfl
  rw [hr, value]
  refine Reads.bind_nil (reads_blank (by simp [Unblank])) ?_
  simp +decide only [List.cons_append, List.head?_cons]
  exact reads_keyword rest

theorem reads_value_bool (depth : Nat) (b : Bool) (rest : List Char) :
    Reads (value (depth + 1)) (render (.bool b)).toList rest (.bool b) := by
  cases b
  · have hr : (render (.bool false)).toList = ['f', 'a', 'l', 's', 'e'] := rfl
    rw [hr, value]
    refine Reads.bind_nil (reads_blank (by simp [Unblank])) ?_
    simp +decide only [List.cons_append, List.head?_cons]
    exact reads_keyword rest
  · have hr : (render (.bool true)).toList = ['t', 'r', 'u', 'e'] := rfl
    rw [hr, value]
    refine Reads.bind_nil (reads_blank (by simp [Unblank])) ?_
    simp +decide only [List.cons_append, List.head?_cons]
    exact reads_keyword rest

theorem reads_value_str (depth : Nat) (s : String) (rest : List Char) :
    Reads (value (depth + 1)) (render (.str s)).toList rest (.str s) := by
  rw [render, quote_toList, value]
  refine Reads.bind_nil (reads_blank (by simp [Unblank])) ?_
  simp +decide only [List.cons_append, List.head?_cons]
  exact Reads.bind (s := ['"']) (reads_bump _ _) (Reads.bind_end (reads_string s rest) (reads_pure _ _))

theorem reads_value_nat (depth : Nat) {n : Nat} (hn : n ≤ u64Bound) {rest : List Char} (hr : Closes rest) :
    Reads (value (depth + 1)) (render (.num (.nat n))).toList rest (.num (.nat n)) := by
  have hr' : (render (.num (.nat n))).toList = Nat.toDigits 10 n := by
    simp [render, Number.render]
  obtain ⟨d, ds, hds, -⟩ : ∃ d ds, Nat.toDigits 10 n = d :: ds ∧ True :=
    ⟨_, _, (List.cons_head_tail Nat.toDigits_ne_nil).symm, trivial⟩
  have hd : d.isDigit = true :=
    Nat.isDigit_of_mem_toDigits (b := 10) (by decide) (by decide) (by rw [hds]; exact List.mem_cons_self)
  obtain ⟨h₁, h₂, h₃, h₄, h₅, h₆, h₇⟩ := isDigit_ne hd
  have hscan := number_toDigits true (show n ≤ Scan.u64Max from hn) hr.endsNumber
  rw [hr', value]
  refine Reads.bind_nil (reads_blank (by rw [hds]; exact (opens_of_isDigit hd (ds ++ rest)).1)) ?_
  rw [hds]
  simp only [List.cons_append, List.head?_cons]
  rw [if_pos hd]
  rw [← hds]
  exact Reads.bind_end (reads_scanned hscan) (reads_pure _ _)

theorem reads_value_neg (depth : Nat) {i : Int} (hi : -2 ^ 63 ≤ i ∧ i < 0) {rest : List Char}
    (hr : Closes rest) :
    Reads (value (depth + 1)) (render (.num (.neg i))).toList rest (.num (.neg i)) := by
  have hr' : (render (.num (.neg i))).toList = '-' :: Nat.toDigits 10 i.natAbs := by
    have : toString i = "-" ++ toString i.natAbs := by
      cases i with
      | ofNat m => simp at hi; omega
      | negSucc m => rfl
    simp [render, Number.render, this]
  have hscan := number_toDigits false (n := i.natAbs) (by unfold Scan.u64Max; omega) hr.endsNumber
  have hval : Scan.integerValue false i.natAbs (Nat.toDigits 10 i.natAbs).length =
      .ok (.neg i) (Nat.toDigits 10 i.natAbs).length := by
    unfold Scan.integerValue
    rw [if_neg (by simp), if_neg (by omega), if_pos (by omega)]
    congr
    omega
  rw [hval] at hscan
  rw [hr', value]
  refine Reads.bind_nil (reads_blank (by simp [Unblank])) ?_
  simp +decide only [List.cons_append, List.head?_cons]
  exact Reads.bind (s := ['-']) (reads_bump _ _) (Reads.bind_end (reads_scanned hscan) (reads_pure _ _))

theorem length_le_commaItems (xs : List Value) : xs.length ≤ (commaItems xs).length := by
  induction xs with
  | nil => simp [commaItems]
  | cons y ys ih => simp only [commaItems_cons, List.length_cons, List.length_append]; omega

theorem length_le_renderItems {xs : List Value} (hopen : ∀ x ∈ xs, Opens (render x).toList) :
    xs.length ≤ (render.renderItems xs).toList.length := by
  cases xs with
  | nil => simp
  | cons x xs =>
    have hx : 0 < (render x).toList.length := by
      have := hopen x List.mem_cons_self
      revert this
      cases (render x).toList <;> simp [Opens]
    have hc := length_le_commaItems xs
    rw [renderItems_cons, List.length_append]
    simp only [List.length_cons]
    omega

theorem length_le_renderFields (fs : List (String × Value)) :
    fs.length ≤ (render.renderFields fs).toList.length := by
  have hc : ∀ fs : List (String × Value), fs.length ≤ (commaFields fs).length := by
    intro fs
    induction fs with
    | nil => simp [commaFields]
    | cons f fs ih => simp [commaFields_cons]; omega
  cases fs with
  | nil => simp
  | cons kv fs =>
    have := hc fs
    rw [renderFields_cons, fieldText, List.length_append, List.length_append, quote_toList]
    simp only [List.length_cons]
    omega

theorem reads_value_arr {depth : Nat} (hd : depth ≠ 0) {xs : List Value}
    (hitem : ∀ x ∈ xs, ∀ rest, Closes rest → Reads (value depth) (render x).toList rest x)
    (hopen : ∀ x ∈ xs, Opens (render x).toList) (rest : List Char) :
    Reads (value (depth + 1)) (render (.arr xs)).toList rest (.arr xs) := by
  have hr : (render (.arr xs)).toList = '[' :: ((render.renderItems xs).toList ++ [']']) := by
    simp [render]
  rw [hr, value]
  refine Reads.bind_nil (reads_blank (by simp [Unblank])) ?_
  simp +decide only [List.cons_append, List.head?_cons]
  rw [if_neg hd]
  refine Reads.bind (s := ['[']) (t := (render.renderItems xs).toList ++ [']']) (reads_bump _ _)
    (Reads.bind_nil (reads_budget _) ?_)
  have hlen := length_le_renderItems hopen
  refine Reads.bind (t := [']'])
    (reads_items hitem hopen (((render.renderItems xs).toList ++ [']'] ++ rest).length + 1)
      (by simp; omega) rest) ?_
  exact Reads.bind_end (reads_closeList rest) (reads_pure _ _)

theorem reads_value_obj {depth : Nat} (hd : depth ≠ 0) {fs : List (String × Value)}
    (hord : KeysOrdered fs)
    (hitem : ∀ kv ∈ fs, ∀ rest, Closes rest → Reads (value depth) (render kv.2).toList rest kv.2)
    (rest : List Char) :
    Reads (value (depth + 1)) (render (.obj fs)).toList rest (.obj fs) := by
  have hr : (render (.obj fs)).toList = '{' :: ((render.renderFields fs).toList ++ ['}']) := by
    simp [render]
  rw [hr, value]
  refine Reads.bind_nil (reads_blank (by simp [Unblank])) ?_
  simp +decide only [List.cons_append, List.head?_cons]
  rw [if_neg hd]
  refine Reads.bind (s := ['{']) (t := (render.renderFields fs).toList ++ ['}']) (reads_bump _ _)
    (Reads.bind_nil (reads_budget _) ?_)
  have hlen := length_le_renderFields fs
  have hread := reads_fields hitem (((render.renderFields fs).toList ++ ['}'] ++ rest).length + 1)
    (by simp; omega) rest
  rw [insertAll, foldl_insertField_of_keysOrdered (p := []) (by simpa using hord), List.nil_append] at hread
  refine Reads.bind (t := ['}']) hread ?_
  exact Reads.bind_end (reads_closeObject rest) (reads_pure _ _)

end Containers

open Value in
/-- A plain value nesting below the depth allowed is read back from its text, whatever
closes it. -/
theorem reads_value {n : Nat} {v : Value} (hv : v.plain = true) (hd : v.depth < n) {rest : List Char}
    (hr : Closes rest) : Reads (value n) (render v).toList rest v := by
  induction n generalizing v rest with
  | zero => omega
  | succ n ih =>
    cases v with
    | null => exact reads_value_null n rest
    | bool b => exact reads_value_bool n b rest
    | num num =>
      cases num with
      | nat k => exact reads_value_nat n (by simpa [plain] using hv) hr
      | neg i => exact reads_value_neg n (by simpa [plain] using hv) hr
      | float f => simp [plain] at hv
    | str s => exact reads_value_str n s rest
    | arr xs =>
      simp only [plain] at hv
      simp only [depth] at hd
      refine reads_value_arr (by omega) (fun x hx rest hr => ih (plain_of_plainItems hv hx)
        (Nat.lt_of_le_of_lt (depth_le_depthItems hx) (by omega)) hr)
        (fun x hx => opens_render (plain_of_plainItems hv hx)) rest
    | obj fs =>
      simp only [plain, Bool.and_eq_true, decide_eq_true_eq] at hv
      simp only [depth] at hd
      exact reads_value_obj (by omega) hv.1 (fun kv hkv rest hr => ih (plain_of_plainFields hv.2 hkv)
        (Nat.lt_of_le_of_lt (depth_le_depthFields hkv) (by omega)) hr) rest

theorem Value.run_value_render {n : Nat} {v : Value} (hv : v.plain = true) (hd : v.depth < n) :
    (Reader.run' (do let v ← Reader.value n; Reader.finish; pure v) v.render).1 = .ok v := by
  apply Reads.run'
  simpa using (reads_value hv hd (show Closes [] from trivial)).bind_end
    (reads_finish.bind_end (reads_pure v []))

/-! ### Nesting and length -/

namespace Value

theorem length_render_le_commaItems {x : Value} {xs : List Value} (hx : x ∈ xs) :
    (render x).toList.length ≤ (commaItems xs).length := by
  induction xs with
  | nil => cases hx
  | cons y ys ih =>
    rw [commaItems_cons, List.length_cons, List.length_append]
    rcases List.mem_cons.1 hx with rfl | hx
    · omega
    · have := ih hx
      omega

theorem length_render_le_renderItems {x : Value} {xs : List Value} (hx : x ∈ xs) :
    (render x).toList.length ≤ (render.renderItems xs).toList.length := by
  cases xs with
  | nil => cases hx
  | cons y ys =>
    rw [renderItems_cons, List.length_append]
    rcases List.mem_cons.1 hx with rfl | hx
    · omega
    · have := length_render_le_commaItems hx
      omega

theorem length_render_le_commaFields {k : String} {x : Value} {fs : List (String × Value)}
    (hx : (k, x) ∈ fs) : (render x).toList.length ≤ (commaFields fs).length := by
  induction fs with
  | nil => cases hx
  | cons kv fs ih =>
    rw [commaFields_cons, List.length_cons, List.length_append, fieldText, List.length_append,
      List.length_cons]
    rcases List.mem_cons.1 hx with rfl | hx
    · dsimp only
      omega
    · have := ih hx
      omega

theorem length_render_le_renderFields {k : String} {x : Value} {fs : List (String × Value)}
    (hx : (k, x) ∈ fs) : (render x).toList.length ≤ (render.renderFields fs).toList.length := by
  cases fs with
  | nil => cases hx
  | cons kv fs =>
    rw [renderFields_cons, List.length_append, fieldText, List.length_append, List.length_cons]
    rcases List.mem_cons.1 hx with rfl | hx
    · dsimp only
      omega
    · have := length_render_le_commaFields hx
      omega

theorem depthItems_le {xs : List Value} {m : Nat} (h : ∀ x ∈ xs, depth x ≤ m) :
    depth.depthItems xs ≤ m := by
  induction xs with
  | nil => exact Nat.zero_le m
  | cons y ys ih =>
    exact Nat.max_le.2 ⟨h y List.mem_cons_self, ih fun x hx => h x (List.mem_cons_of_mem _ hx)⟩

theorem depthFields_le {fs : List (String × Value)} {m : Nat} (h : ∀ kv ∈ fs, depth kv.2 ≤ m) :
    depth.depthFields fs ≤ m := by
  induction fs with
  | nil => exact Nat.zero_le m
  | cons kv fs ih =>
    exact Nat.max_le.2 ⟨h kv List.mem_cons_self, ih fun x hx => h x (List.mem_cons_of_mem _ hx)⟩

/-- A value nests no deeper than its text is long: each level opens with a bracket. -/
theorem depth_le_length_render (v : Value) : v.depth ≤ (render v).toList.length := by
  -- induction on a bound of the depth, which every member of a container lies below
  suffices h : ∀ n, ∀ v : Value, v.depth < n → v.depth ≤ (render v).toList.length from
    h _ v (Nat.lt_succ_self _)
  intro n
  induction n with
  | zero => intro v h; omega
  | succ n ih =>
    intro v hv
    cases v with
    | arr xs =>
      simp only [depth] at hv ⊢
      have hitems := depthItems_le (m := (render.renderItems xs).toList.length) fun x hx =>
        (ih x (Nat.lt_of_le_of_lt (depth_le_depthItems hx) (by omega))).trans
          (length_render_le_renderItems hx)
      simp [render]
      omega
    | obj fs =>
      simp only [depth] at hv ⊢
      have hfields := depthFields_le (m := (render.renderFields fs).toList.length) fun kv hkv =>
        (ih kv.2 (Nat.lt_of_le_of_lt (depth_le_depthFields hkv) (by omega))).trans
          (length_render_le_renderFields hkv)
      simp [render]
      omega
    | _ => simp [depth]

end Value

/-! ### Libraries that read back -/

/-- A JSON library reads back plain values: parsing what it prints of one gives the value again. -/
def Library.ReadsBack (lib : Library) : Prop :=
  ∀ v : Value, v.plain = true → lib.parse (lib.print v) = .ok v

/-- The host's writer with its reader allowed a level for each character of the text: a library
with no nesting limit of its own. -/
def Library.unlimited : Library where
  print := Value.render
  parse s := (Reader.run' (do let v ← Reader.value (s.length + 1); Reader.finish; pure v) s).1

theorem Library.unlimited_readsBack : unlimited.ReadsBack := by
  intro v hv
  have hd : v.depth < v.render.length + 1 := by
    have := Value.depth_le_length_render v
    rw [String.length_toList] at this
    omega
  exact Value.run_value_render hv hd

end Hsm.Json

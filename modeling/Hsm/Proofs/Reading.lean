import Mathlib
import Hsm.Json.Decode
import Hsm.Json.Write
/-! What the JSON text reader reads. `Reads r input rest a` says that `r`, run on any cursor with
`input ++ rest` still to read, returns `a` and leaves `rest`. It is built up along the reader's
own structure, a lemma for each primitive reader and combinators for binding and closing. -/
namespace Hsm.Json
open Reader

def Reads {α : Type} (r : Reader α) (input rest : List Char) (a : α) : Prop :=
  ∀ c : Cursor, c.rest = input ++ rest → ∃ c' : Cursor, (ExceptT.run r).run c = (.ok a, c') ∧ c'.rest = rest

theorem Reads.bind {α β : Type} {r : Reader α} {f : α → Reader β} {s t rest : List Char} {a : α} {b : β}
    (h₁ : Reads r s (t ++ rest) a) (h₂ : Reads (f a) t rest b) : Reads (r >>= f) (s ++ t) rest b := by
  intro c hc
  obtain ⟨c₁, hr, hc₁⟩ := h₁ c (by rw [hc, List.append_assoc])
  obtain ⟨c₂, hf, hc₂⟩ := h₂ c₁ hc₁
  refine ⟨c₂, ?_, hc₂⟩
  simp only [ExceptT.run_bind, StateT.run_bind, hr]
  exact hf

theorem reads_bump (ch : Char) (rest : List Char) : Reads Reader.bump [ch] rest () := by
  intro c hc
  refine ⟨c.bump, ?_, ?_⟩
  · rfl
  · simp only [Cursor.bump, hc, List.cons_append, List.nil_append]
    split <;> simp_all

theorem reads_peek (rest : List Char) : Reads Reader.peek [] rest rest.head? := by
  intro c hc
  have : rest.head? = c.rest.head? := by simp [hc]
  exact ⟨c, by rw [this]; rfl, hc⟩

theorem reads_pure {α : Type} (a : α) (rest : List Char) : Reads (pure a) [] rest a :=
  fun c hc => ⟨c, rfl, by simpa using hc⟩

theorem reads_budget (rest : List Char) : Reads Reader.budget [] rest (rest.length + 1) := by
  intro c hc
  have : rest.length = c.rest.length := by simp [hc]
  exact ⟨c, by rw [this]; rfl, by simpa using hc⟩

theorem skipBlanks_of_head {c : Cursor} (h : ∀ ch ∈ c.rest.head?, ¬ (ch = ' ' ∨ ch = '\t' ∨ ch = '\r' ∨ ch = '\n')) :
    c.skipBlanks = c := by
  rw [Cursor.skipBlanks]
  split
  · rename_i ch cs hcs
    rw [if_neg (h ch (by simp [hcs]))]
  · rfl

theorem Reads.bind_nil {α β : Type} {r : Reader α} {f : α → Reader β} {s rest : List Char} {a : α} {b : β}
    (h₁ : Reads r [] (s ++ rest) a) (h₂ : Reads (f a) s rest b) : Reads (r >>= f) s rest b := by
  simpa using h₁.bind h₂

theorem reads_modify {f : Cursor → Cursor} {rest : List Char}
    (hf : ∀ c : Cursor, c.rest = rest → (f c).rest = rest) : Reads (modify f) [] rest () :=
  fun c hc => ⟨f c, rfl, hf c (by simpa using hc)⟩

/-- Blanks are read only where there are some: before any other character nothing moves. -/
def Unblank : List Char → Prop
  | [] => True
  | ch :: _ => ¬ (ch = ' ' ∨ ch = '\t' ∨ ch = '\r' ∨ ch = '\n')

theorem reads_blank {rest : List Char} (h : Unblank rest) : Reads Reader.blank [] rest rest.head? := by
  refine Reads.bind_nil (reads_modify fun c hc => ?_) (reads_peek rest)
  have hhead : ∀ ch ∈ c.rest.head?, ¬ (ch = ' ' ∨ ch = '\t' ∨ ch = '\r' ∨ ch = '\n') := by
    cases rest with
    | nil => simp [hc]
    | cons ch cs => simpa [hc, Unblank] using h
  rw [skipBlanks_of_head hhead, hc]


theorem Reads.bind_end {α β : Type} {r : Reader α} {f : α → Reader β} {s rest : List Char} {a : α} {b : β}
    (h₁ : Reads r s rest a) (h₂ : Reads (f a) [] rest b) : Reads (r >>= f) s rest b := by
  simpa using Reads.bind (t := []) (by simpa using h₁) h₂

theorem Reads.tryCatch {α : Type} {r : Reader α} {h : Error → Reader α} {s rest : List Char} {a : α}
    (hr : Reads r s rest a) : Reads (tryCatch r h) s rest a := by
  intro c hc
  obtain ⟨c', hrun, hc'⟩ := hr c hc
  refine ⟨c', ?_, hc'⟩
  show (ExceptT.run (ExceptT.tryCatch r h)).run c = _
  simp only [ExceptT.tryCatch, ExceptT.run_mk, StateT.run_bind]
  rw [show StateT.run r c = (Except.ok a, c') from hrun]
  rfl

theorem Reads.placed {α : Type} {r : Reader α} {s rest : List Char} {a : α} (hr : Reads r s rest a) :
    Reads (Reader.placed r) s rest a := hr.tryCatch

theorem Reads.closing {α : Type} {body : Reader α} {close : Reader Unit} {s t rest : List Char} {a : α}
    (hb : Reads body s (t ++ rest) a) (hc : Reads close t rest ()) : Reads (closing body close) (s ++ t) rest a :=
  (hb.bind (hc.bind_end (reads_pure a rest))).tryCatch

theorem Reads.map {α β : Type} {r : Reader α} {f : α → β} {s rest : List Char} {a : α}
    (h : Reads r s rest a) : Reads (f <$> r) s rest (f a) := by
  intro c hc
  obtain ⟨c', hrun, hc'⟩ := h c hc
  refine ⟨c', ?_, hc'⟩
  simp only [ExceptT.run_map, StateT.run_map, hrun]
  rfl

theorem reads_finish : Reads finish [] [] () := by
  unfold finish
  refine Reads.bind_nil (reads_blank trivial) ?_
  exact reads_pure _ _

theorem Reads.run' {α : Type} {r : Reader α} {s : String} {a : α} (h : Reads r s.toList [] a) :
    (Reader.run' r s).1 = .ok a := by
  obtain ⟨c', hc', -⟩ := h (Cursor.ofString s) (by simp [Cursor.ofString])
  simp [Reader.run', hc']

/-! ### Strings -/

theorem advance_rest (c : Cursor) (n : Nat) : (c.advance n).rest = c.rest.drop n := by
  induction n generalizing c with
  | zero => rfl
  | succ n ih =>
    rw [Cursor.advance, ih]
    cases h : c.rest with
    | nil => simp [Cursor.bump, h]
    | cons ch cs =>
      have : c.bump.rest = cs := by
        unfold Cursor.bump; rw [h]; split <;> simp_all
      simp [this]

theorem reads_get_bind {α : Type} {k : Cursor → Reader α} {s rest : List Char} {a : α}
    (h : ∀ c : Cursor, c.rest = s ++ rest →
      ∃ c' : Cursor, (ExceptT.run (k c)).run c = (.ok a, c') ∧ c'.rest = rest) :
    Reads (get >>= k) s rest a := by
  intro c hc
  obtain ⟨c', hk, hc'⟩ := h c hc
  exact ⟨c', hk, hc'⟩

theorem reads_escape_letter {l x : Char} (he : escaped? l = some x) (acc more : List Char) :
    Reads (escape acc) [l] more (x :: acc) := by
  unfold escaped? at he
  unfold escape
  split at he <;> cases he <;>
  · refine Reads.bind_nil (reads_peek _) ?_
    show Reads (bump >>= fun _ => pure (_ :: acc)) _ more _
    exact Reads.bind_end (reads_bump _ more) (reads_pure _ _)

theorem hexVal_digitChar {k : Nat} (hk : k < 16) : hexVal (Nat.digitChar k) = some k := by
  have : ∀ k < 16, hexVal (Nat.digitChar k) = some k := by decide
  exact this k hk

theorem reads_hexQuad {a b d e : Char} {w x y z : Nat} (ha : hexVal a = some w) (hb : hexVal b = some x)
    (hd : hexVal d = some y) (he : hexVal e = some z) (more : List Char) :
    Reads hexQuad [a, b, d, e] more (((w * 16 + x) * 16 + y) * 16 + z) := by
  refine reads_get_bind fun c hc => ⟨c.advance 4, ?_, by rw [advance_rest, hc]; rfl⟩
  rw [hc]
  simp only [List.cons_append, List.nil_append, ha, hb, hd, he]
  rfl

theorem reads_unicodeEscape {x : Char} (hx : x.toNat < 0x20) (acc more : List Char) :
    Reads (unicodeEscape acc) ['0', '0', Nat.digitChar (x.toNat / 16), Nat.digitChar (x.toNat % 16)] more
      (x :: acc) := by
  unfold unicodeEscape
  refine Reads.bind_end (reads_hexQuad (w := 0) (x := 0) (hexVal_digitChar (by decide))
    (hexVal_digitChar (by decide)) (hexVal_digitChar (by omega)) (hexVal_digitChar (Nat.mod_lt _ (by decide))) more) ?_
  have hn : ((0 * 16 + 0) * 16 + x.toNat / 16) * 16 + x.toNat % 16 = x.toNat := by omega
  rw [hn, if_neg (by omega), if_pos (by omega), Char.ofNat_toNat]
  exact reads_pure _ _

theorem reads_escape_unicode {x : Char} (hx : x.toNat < 0x20) (acc more : List Char) :
    Reads (escape acc) ['u', '0', '0', Nat.digitChar (x.toNat / 16), Nat.digitChar (x.toNat % 16)] more
      (x :: acc) := by
  unfold escape
  refine Reads.bind_nil (reads_peek _) ?_
  show Reads (bump >>= fun _ => unicodeEscape acc) _ more _
  exact Reads.bind (reads_bump 'u' _) (reads_unicodeEscape hx acc more)

theorem reads_stringBody_plain {x : Char} {fuel : Nat} {acc more rest : List Char} {s : String}
    (hq : x ≠ '"') (hb : x ≠ '\\') (hc : ¬ x.toNat < 0x20)
    (h : Reads (stringBody fuel (x :: acc)) more rest s) :
    Reads (stringBody (fuel + 1) acc) (x :: more) rest s := by
  rw [stringBody]
  refine Reads.bind_nil (reads_peek _) ?_
  simp only [List.cons_append, List.head?_cons]
  rw [if_neg hc]
  exact Reads.bind (s := [x]) (reads_bump x _) h

theorem reads_stringBody_escaped {t : List Char} {x : Char} {fuel : Nat} {acc more rest : List Char}
    {s : String} (he : ∀ more, Reads (escape acc) t more (x :: acc))
    (h : Reads (stringBody fuel (x :: acc)) more rest s) :
    Reads (stringBody (fuel + 1) acc) ('\\' :: t ++ more) rest s := by
  rw [stringBody]
  refine Reads.bind_nil (reads_peek _) ?_
  show Reads (bump >>= fun _ => escape acc >>= fun acc' => stringBody fuel acc') _ rest _
  exact Reads.bind (s := ['\\']) (reads_bump _ _) (Reads.bind (he _) h)

/-- One written character of a string is read back as that character. -/
theorem reads_stringBody_escapeChar (x : Char) {fuel : Nat} {acc more rest : List Char} {s : String}
    (h : Reads (stringBody fuel (x :: acc)) more rest s) :
    Reads (stringBody (fuel + 1) acc) ((escapeChar x).toList ++ more) rest s := by
  unfold escapeChar
  split
  · exact reads_stringBody_escaped (t := ['"']) (reads_escape_letter rfl acc) h
  · exact reads_stringBody_escaped (t := ['\\']) (reads_escape_letter rfl acc) h
  · exact reads_stringBody_escaped (t := ['n']) (reads_escape_letter rfl acc) h
  · exact reads_stringBody_escaped (t := ['r']) (reads_escape_letter rfl acc) h
  · exact reads_stringBody_escaped (t := ['t']) (reads_escape_letter rfl acc) h
  · rename_i hq hb _ _ _
    split
    · rename_i h8
      have hx : x = Char.ofNat 8 := by rw [← h8, Char.ofNat_toNat]
      subst hx
      exact reads_stringBody_escaped (t := ['b']) (reads_escape_letter rfl acc) h
    · split
      · rename_i h12
        have hx : x = Char.ofNat 12 := by rw [← h12, Char.ofNat_toNat]
        subst hx
        exact reads_stringBody_escaped (t := ['f']) (reads_escape_letter rfl acc) h
      · split
        · rename_i hc
          simpa using reads_stringBody_escaped (reads_escape_unicode hc acc) h
        · rename_i hc
          simpa using reads_stringBody_plain hq hb hc h

def escaped (cs : List Char) : List Char := cs.flatMap fun x => (escapeChar x).toList

theorem length_le_escaped (cs : List Char) : cs.length ≤ (escaped cs).length := by
  induction cs with
  | nil => simp [escaped]
  | cons x cs ih =>
    have hx : 0 < (escapeChar x).toList.length := by
      unfold escapeChar
      split
      all_goals try (simp; done)
      split
      · simp
      · split
        · simp
        · split <;> simp
    simp only [escaped, List.flatMap_cons, List.length_append, List.length_cons] at ih ⊢
    omega

theorem reads_stringBody (cs : List Char) (fuel : Nat) (hfuel : cs.length < fuel) (acc rest : List Char) :
    Reads (stringBody fuel acc) (escaped cs ++ ['"']) rest (String.ofList (acc.reverse ++ cs)) := by
  induction cs generalizing fuel acc with
  | nil =>
    obtain ⟨fuel, rfl⟩ : ∃ f, fuel = f + 1 := ⟨fuel - 1, by simp at hfuel; omega⟩
    rw [stringBody]
    simp only [escaped, List.flatMap_nil, List.nil_append, List.append_nil]
    refine Reads.bind_nil (reads_peek _) ?_
    show Reads (bump >>= fun _ => pure (String.ofList acc.reverse)) _ rest _
    exact Reads.bind_end (reads_bump '"' rest) (reads_pure _ _)
  | cons x cs ih =>
    obtain ⟨fuel, rfl⟩ : ∃ f, fuel = f + 1 := ⟨fuel - 1, by simp at hfuel; omega⟩
    have h := ih fuel (by simp at hfuel; omega) (x :: acc)
    simp only [List.reverse_cons, List.append_assoc, List.singleton_append] at h
    simpa [escaped, List.append_assoc] using reads_stringBody_escapeChar x h

theorem reads_string (s : String) (rest : List Char) :
    Reads Reader.string (escaped s.toList ++ ['"']) rest s := by
  unfold Reader.string
  refine Reads.bind_nil (reads_budget _) ?_
  have := reads_stringBody s.toList ((escaped s.toList ++ ['"'] ++ rest).length + 1)
    (by have := length_le_escaped s.toList; simp; omega) [] rest
  simpa using this

theorem quote_toList (s : String) : (quote s).toList = '"' :: (escaped s.toList ++ ['"']) := by
  simp [quote, escaped, String.toList_join, List.flatMap, Function.comp_def]

/-! ### Numbers -/

def EndsNumber : List Char → Prop
  | [] => True
  | c :: _ => c.isDigit = false ∧ c ≠ '.' ∧ c ≠ 'e' ∧ c ≠ 'E'

theorem le_ofDigitChars (l : List Char) (init : Nat) : init ≤ Nat.ofDigitChars 10 l init := by
  rw [Nat.ofDigitChars_eq_ofDigitChars_zero]
  have : 1 ≤ 10 ^ l.length := Nat.one_le_pow _ _ (by decide)
  calc init ≤ 10 ^ l.length * init := Nat.le_mul_of_pos_left init this
    _ ≤ _ := Nat.le_add_right _ _

theorem afterInteger_of_ends (positive : Bool) (sig used : Nat) {rest : List Char}
    (hr : EndsNumber rest) : Scan.afterInteger positive sig used rest = Scan.integerValue positive sig used := by
  match rest, hr with
  | [], _ => rfl
  | c :: cs, ⟨_, hdot, he, hE⟩ =>
    unfold Scan.afterInteger
    split
    · rename_i h; cases h; exact absurd rfl hdot
    · rename_i h; cases h; rw [if_neg (by simp [he, hE])]
    · rename_i h; cases h

theorem integerDigits_append {ds rest : List Char} (hd : ∀ d ∈ ds, d.isDigit = true) (hr : EndsNumber rest)
    (positive : Bool) (sig used : Nat) (hb : Nat.ofDigitChars 10 ds sig ≤ Scan.u64Max) :
    Scan.integerDigits positive sig used (ds ++ rest) =
      Scan.integerValue positive (Nat.ofDigitChars 10 ds sig) (used + ds.length) := by
  induction ds generalizing sig used with
  | nil =>
    simp only [List.nil_append, Nat.ofDigitChars_nil, List.length_nil, Nat.add_zero]
    match rest, hr with
    | [], _ => exact afterInteger_of_ends _ _ _ trivial
    | c :: cs, hr =>
      unfold Scan.integerDigits
      rw [if_neg (by simp [hr.1]), afterInteger_of_ends _ _ _ hr]
  | cons d ds ih =>
    have hnext : sig * 10 + Scan.digitVal d ≤ Scan.u64Max := by
      have := le_ofDigitChars ds (10 * sig + (d.toNat - '0'.toNat))
      rw [Nat.ofDigitChars_cons] at hb
      simp only [Scan.digitVal]
      have h48 : '0'.toNat = 48 := rfl
      omega
    simp only [List.cons_append]
    unfold Scan.integerDigits
    rw [if_pos (hd d List.mem_cons_self), if_neg (by omega)]
    rw [ih (fun d' h' => hd d' (List.mem_cons_of_mem d h')) _ _ (by
      rw [Nat.ofDigitChars_cons] at hb
      simpa [Scan.digitVal, Nat.mul_comm] using hb)]
    rw [Nat.ofDigitChars_cons]
    simp only [Scan.digitVal, List.length_cons, Nat.mul_comm, Nat.add_assoc, Nat.add_comm 1]
    rfl

theorem toDigits_head {n : Nat} (hn : 0 < n) : ∃ d ds, Nat.toDigits 10 n = d :: ds ∧ d ≠ '0' := by
  induction n using Nat.strongRecOn with
  | ind n ih =>
    rw [Nat.toDigits_eq_if (by decide)]
    split
    · rename_i hlt
      have : ∀ k < 10, 0 < k → Nat.digitChar k ≠ '0' := by decide
      exact ⟨_, [], rfl, this n hlt hn⟩
    · obtain ⟨d, ds, hds, hd⟩ := ih (n / 10) (by omega) (by omega)
      exact ⟨d, ds ++ _, by rw [hds, List.cons_append], hd⟩

theorem number_toDigits (positive : Bool) {n : Nat} (hn : n ≤ Scan.u64Max) {rest : List Char}
    (hr : EndsNumber rest) :
    Scan.number positive (Nat.toDigits 10 n ++ rest) =
      Scan.integerValue positive n (Nat.toDigits 10 n).length := by
  rcases Nat.eq_zero_or_pos n with rfl | hpos
  · rw [Nat.toDigits_zero]
    match rest, hr with
    | [], _ => rfl
    | c :: cs, hr =>
      unfold Scan.number
      simp only [List.cons_append, List.nil_append]
      rw [if_neg (by simp [hr.1]), afterInteger_of_ends _ _ _ hr]
      rfl
  · obtain ⟨d, ds, hds, hd⟩ := toDigits_head hpos
    have hdig : ∀ c ∈ Nat.toDigits 10 n, c.isDigit = true :=
      fun c hc => Nat.isDigit_of_mem_toDigits (by decide) (by decide) hc
    have hval : Nat.ofDigitChars 10 ds (Scan.digitVal d) = n := by
      have := Nat.ofDigitChars_ten_toDigits (n := n)
      rw [hds, Nat.ofDigitChars_cons] at this
      simpa [Scan.digitVal] using this
    rw [hds] at hdig ⊢
    unfold Scan.number
    simp only [List.cons_append]
    rw [if_pos (hdig d List.mem_cons_self),
      integerDigits_append (fun c hc => hdig c (List.mem_cons_of_mem d hc)) hr _ _ _ (by omega), hval]
    simp [Nat.add_comm]

theorem reads_scanned {scan : List Char → Scan} {s rest : List Char} {num : Number}
    (h : scan (s ++ rest) = .ok num s.length) : Reads (scanned scan) s rest num := by
  refine reads_get_bind fun c hc => ⟨c.advance s.length, ?_, by rw [advance_rest, hc]; simp⟩
  rw [hc, h]
  rfl

/-! ### Punctuation -/

/-- What may follow a written value: the end of the text, or a comma or closing bracket. -/
def Closes : List Char → Prop
  | [] => True
  | c :: _ => c = ',' ∨ c = ']' ∨ c = '}'

theorem Closes.endsNumber {rest : List Char} (h : Closes rest) : EndsNumber rest := by
  match rest, h with
  | [], _ => trivial
  | c :: _, h => rcases h with rfl | rfl | rfl <;> simp [EndsNumber]

theorem reads_ident (es rest : List Char) : Reads (ident es) es rest () := by
  induction es with
  | nil => exact reads_pure _ _
  | cons e es ih =>
    unfold ident
    refine Reads.bind_nil (reads_peek _) ?_
    simp only [List.cons_append, List.head?_cons, if_pos]
    exact Reads.bind (s := [e]) (reads_bump e _) ih

theorem reads_closeList (rest : List Char) : Reads closeList [']'] rest () := by
  unfold closeList
  refine Reads.bind_nil (reads_blank (by simp [Unblank])) ?_
  simp +decide only [List.cons_append, List.nil_append, List.head?_cons]
  exact reads_bump _ _

theorem reads_closeObject (rest : List Char) : Reads closeObject ['}'] rest () := by
  unfold closeObject
  refine Reads.bind_nil (reads_blank (by simp [Unblank])) ?_
  simp +decide only [List.cons_append, List.nil_append, List.head?_cons]
  exact reads_bump _ _

theorem reads_colon (rest : List Char) : Reads colon [':'] rest () := by
  unfold colon
  refine Reads.bind_nil (reads_blank (by simp [Unblank])) ?_
  simp +decide only [List.cons_append, List.nil_append, List.head?_cons]
  exact reads_bump _ _

theorem reads_moreItems_close (first : Bool) (rest : List Char) :
    Reads (moreItems first) [] (']' :: rest) false := by
  unfold moreItems
  refine Reads.bind_nil (reads_blank (by simp [Unblank])) ?_
  simp +decide only [List.nil_append, List.head?_cons]
  exact reads_pure _ _

def Opens : List Char → Prop
  | [] => False
  | c :: _ => Unblank [c] ∧ c ≠ ']' ∧ c ≠ '}' ∧ c ≠ ','

theorem reads_moreItems_first {rest : List Char} (h : Opens rest) : Reads (moreItems true) [] rest true := by
  match rest, h with
  | c :: cs, ⟨hb, hc, _⟩ =>
    unfold moreItems
    refine Reads.bind_nil (reads_blank hb) ?_
    simp only [List.nil_append, List.head?_cons, if_true]
    exact reads_pure _ _

theorem reads_moreItems_comma {rest : List Char} (h : Opens rest) :
    Reads (moreItems false) [','] rest true := by
  match rest, h with
  | c :: cs, ⟨hb, hc, _⟩ =>
    unfold moreItems
    refine Reads.bind_nil (reads_blank (by simp [Unblank])) ?_
    simp +decide only [List.cons_append, List.nil_append, List.head?_cons, if_pos]
    refine Reads.bind (s := [',']) (t := []) (reads_bump _ _) (Reads.bind_nil (reads_blank hb) ?_)
    simp only [List.nil_append, List.head?_cons]
    exact reads_pure _ _

theorem reads_nextKey_close (first : Bool) (rest : List Char) :
    Reads (nextKey first) [] ('}' :: rest) none := by
  unfold nextKey
  refine Reads.bind_nil (reads_blank (by simp [Unblank])) ?_
  simp +decide only [List.nil_append, List.head?_cons]
  exact reads_pure _ _

theorem reads_key (k : String) (rest : List Char) :
    Reads (bump >>= fun _ => Reader.string >>= fun s => pure (some s))
      ('"' :: (escaped k.toList ++ ['"'])) rest (some k) :=
  Reads.bind (s := ['"']) (reads_bump _ _) (Reads.bind_end (reads_string k rest) (reads_pure _ _))

theorem reads_nextKey_first (k : String) (rest : List Char) :
    Reads (nextKey true) (quote k).toList rest (some k) := by
  rw [quote_toList]
  unfold nextKey
  refine Reads.bind_nil (reads_blank (by simp [Unblank])) ?_
  simp +decide only [List.cons_append, List.head?_cons, if_true]
  exact Reads.bind_nil (reads_pure _ _) (reads_key k rest)

theorem reads_nextKey_comma (k : String) (rest : List Char) :
    Reads (nextKey false) (',' :: (quote k).toList) rest (some k) := by
  rw [quote_toList]
  unfold nextKey
  refine Reads.bind_nil (reads_blank (by simp [Unblank])) ?_
  simp +decide only [List.cons_append, List.head?_cons, if_false]
  refine Reads.bind (s := [',']) (reads_bump _ _) (Reads.bind_nil (reads_blank (by simp [Unblank])) ?_)
  simp +decide only [List.cons_append, List.head?_cons]
  exact reads_key k rest

theorem Opens.append {l : List Char} (h : Opens l) (t : List Char) : Opens (l ++ t) := by
  match l, h with
  | _ :: _, h => exact h

end Hsm.Json

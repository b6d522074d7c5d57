import Rustybox.Bc.Lexed

/-!
# bc reads back what it prints

The text of a number is that of its digits.  Reading it gives the number again: a decimal number
is copied digit by digit, in another base the digits are added up.
-/

namespace Rustybox.Bc

open Positional

/-! ### The text of a number -/

def digitChar (d : ℤ) : Char := hexdigit d.toNat

theorem digitChar_eq {d : ℤ} (h : 0 ≤ d ∧ d < 10) : decimalDigit (digitChar d) = d ∧
    (isDigit (digitChar d) || isUpper (digitChar d)) = true ∧ (digitChar d = '0' ↔ d = 0) ∧
    singleDigit (digitChar d) = [d] := by
  obtain ⟨h0, h10⟩ := h
  have hall : ∀ k : Fin 10, decimalDigit (digitChar k.val) = k.val ∧
      (isDigit (digitChar k.val) || isUpper (digitChar k.val)) = true ∧
      (digitChar k.val = '0' ↔ (k.val : ℤ) = 0) ∧
      singleDigit (digitChar k.val) = [(k.val : ℤ)] := by decide
  have := hall ⟨d.toNat, by omega⟩
  rwa [Int.toNat_of_nonneg h0] at this

section

variable {n : BcNum}

theorem decimalText_below {i : ℕ} (hi : i ≤ n.len) (h : i < n.rdx ∨ n.rdx = 0) :
    decimalText n i = (n.num.take i).reverse.map digitChar := by
  induction i with
  | zero => rfl
  | succ i ih =>
    rw [decimalText, if_neg (by omega), List.nil_append, ih (by omega) (by omega),
      take_succ_eq hi, List.reverse_append, List.map_append]
    rfl

theorem decimalText_eq (h : n.rdx ≤ n.len) :
    decimalText n n.len = (n.num.drop n.rdx).reverse.map digitChar ++
      if n.rdx = 0 then [] else '.' :: (n.num.take n.rdx).reverse.map digitChar := by
  split
  · next h0 =>
    rw [decimalText_below (Nat.le_refl _) (Or.inr h0), h0, List.append_nil, List.drop_zero,
      BcNum.len, List.take_length]
  · next h0 =>
    have hgen : ∀ i, n.rdx ≤ i → i ≤ n.len → decimalText n i =
        ((n.num.take i).drop n.rdx).reverse.map digitChar ++
          '.' :: (n.num.take n.rdx).reverse.map digitChar := by
      intro i hle hi
      induction i, hle using Nat.le_induction with
      | base =>
        obtain ⟨j, hj⟩ : ∃ j, n.rdx = j + 1 := Nat.exists_eq_succ_of_ne_zero h0
        rw [hj] at hi ⊢
        rw [decimalText, if_pos hj.symm, decimalText_below (by omega) (by omega),
          take_succ_eq hi, List.reverse_append, List.map_append, ← take_succ_eq hi,
          List.drop_eq_nil_of_le (by rw [List.length_take]; omega)]
        rfl
      | succ i hle ih =>
        rw [decimalText, if_neg (by omega), ih (by omega), take_succ_eq hi,
          List.drop_append_of_le_length (by
            rw [List.length_take, Nat.min_eq_left (by rw [BcNum.len] at hi; omega)]
            exact hle),
          List.reverse_append, List.map_append]
        rfl
    rw [hgen n.len h (Nat.le_refl _), BcNum.len, List.take_length]

theorem strValid_append {text : List Char} (h : ∀ c ∈ text, (isDigit c || isUpper c) = true)
    (radix : Bool) (rest : List Char) : strValid radix (text ++ rest) = strValid radix rest := by
  induction text with
  | nil => rfl
  | cons c text ih =>
    have hc := h c List.mem_cons_self
    have hrange := (digit_iff c).mp hc
    rw [List.cons_append, strValid, if_neg (digit_ne hc).2.2, if_neg,
      ih (fun c hmem => h c (List.mem_cons_of_mem _ hmem))]
    simp only [Bool.and_eq_true, Bool.or_eq_true, decide_eq_true_eq]
    omega

/-! ### Decimal numbers -/

theorem mem_map_digitChar {ds : List ℤ} (h : IsDigits 10 ds) {c : Char}
    (hc : c ∈ ds.map digitChar) : (isDigit c || isUpper c) = true := by
  obtain ⟨d, hd, rfl⟩ := List.mem_map.mp hc
  exact (digitChar_eq (h d hd)).2.1

theorem isDigits_reverse {ds : List ℤ} (h : IsDigits 10 ds) : IsDigits 10 ds.reverse :=
  fun d hd => h d (List.mem_reverse.mp hd)

theorem strValid_decimalText (h : Normal n) (hne : n.num ≠ []) :
    strValid false (decimalText n n.len) = true := by
  have hint := isDigits_reverse (h.digits.drop n.rdx)
  have hfrac := isDigits_reverse (h.digits.take n.rdx)
  rw [decimalText_eq (h.rdx_le hne), strValid_append fun c hc => mem_map_digitChar hint hc]
  split
  · rfl
  · rw [strValid, if_pos rfl, Bool.not_false, Bool.true_and,
      ← List.append_nil (List.map _ _), strValid_append fun c hc => mem_map_digitChar hfrac hc]
    rfl

/-- The text of a decimal number does not start with a zero. -/
theorem head_decimalText (h : Normal n) (hne : n.num ≠ []) :
    ∃ c text, decimalText n n.len = c :: text ∧ c ≠ '0' := by
  have hle := h.rdx_le hne
  rw [decimalText_eq hle]
  rcases Nat.eq_or_lt_of_le hle with heq | hlt
  · have h0 : n.rdx ≠ 0 := by
      rw [heq, BcNum.len]
      exact fun hl => hne (List.eq_nil_of_length_eq_zero hl)
    rw [if_neg h0, List.drop_eq_nil_of_le (Nat.le_of_eq heq.symm)]
    exact ⟨'.', _, rfl, by decide⟩
  · obtain ⟨ds, d, hnum, hd⟩ := h.getLast_ne hlt
    have hdigit : 0 ≤ d ∧ d < 10 := h.digits d (by rw [hnum]; simp)
    have hlen : n.rdx ≤ ds.length := by
      rw [BcNum.len, hnum, List.length_append, List.length_singleton] at hlt
      omega
    rw [hnum, List.drop_append_of_le_length hlen, List.reverse_append, List.map_append]
    exact ⟨digitChar d, _, rfl, fun h0 => hd ((digitChar_eq hdigit).2.2.1.mp h0)⟩

theorem mem_decimalText (h : Normal n) (hne : n.num ≠ []) {d : ℤ} (hd : d ∈ n.num) :
    digitChar d ∈ decimalText n n.len := by
  rw [decimalText_eq (h.rdx_le hne)]
  rw [← List.take_append_drop n.rdx n.num] at hd
  rcases List.mem_append.mp hd with hd | hd
  · apply List.mem_append_right
    split
    · next h0 =>
      rw [h0, List.take_zero] at hd
      cases hd
    · exact List.mem_cons_of_mem _ (List.mem_map_of_mem (List.mem_reverse.mpr hd))
  · exact List.mem_append_left _ (List.mem_map_of_mem (List.mem_reverse.mpr hd))

theorem fractionLen_decimalText (h : Normal n) (hne : n.num ≠ []) :
    fractionLen (decimalText n n.len) = n.rdx := by
  have hle := h.rdx_le hne
  have hint := isDigits_reverse (h.digits.drop n.rdx)
  rw [fractionLen, decimalText_eq hle, List.dropWhile_append_of_pos]
  · split
    · next h0 => rw [h0]; rfl
    · rw [List.dropWhile_cons_of_neg (by decide), List.length_cons, List.length_map,
        List.length_reverse, List.length_take, Nat.add_sub_cancel]
      exact Nat.min_eq_left hle
  · intro c hc
    exact decide_eq_true (digit_ne (mem_map_digitChar hint hc)).2.2

theorem filter_decimalText (h : Normal n) (hne : n.num ≠ []) :
    (decimalText n n.len).reverse.filter (· ≠ '.') = n.num.map digitChar := by
  have hkeep : ∀ {ds : List ℤ}, IsDigits 10 ds →
      (ds.map digitChar).filter (· ≠ '.') = ds.map digitChar := by
    intro ds hds
    rw [List.filter_eq_self]
    intro c hc
    exact decide_eq_true (digit_ne (mem_map_digitChar hds hc)).2.2
  rw [decimalText_eq (h.rdx_le hne), List.reverse_append, List.filter_append, ← List.map_reverse,
    List.reverse_reverse, hkeep (h.digits.drop _)]
  split
  · next h0 =>
    rw [h0]
    rfl
  · rw [List.reverse_cons, List.filter_append, ← List.map_reverse, List.reverse_reverse,
      hkeep (h.digits.take _), List.filter_cons_of_neg (by decide), List.filter_nil,
      List.append_nil, ← List.map_append, List.take_append_drop]

theorem last_decimalText (n : BcNum) (i : ℕ) :
    ∃ text, decimalText n (i + 1) = text ++ [digitChar (n.num.getD 0 0)] := by
  induction i with
  | zero => exact ⟨if 1 = n.rdx then ['.'] else [], List.append_nil _⟩
  | succ i ih =>
    obtain ⟨text, htext⟩ := ih
    rw [decimalText, htext, ← List.append_assoc]
    exact ⟨_, rfl⟩

theorem map_decimalDigit {ds : List ℤ} (h : IsDigits 10 ds) :
    (ds.map digitChar).map decimalDigit = ds := by
  rw [List.map_map]
  conv => rhs; rw [← List.map_id ds]
  exact List.map_congr_left fun d hd => (digitChar_eq (h d hd)).1

theorem parseDecimal_decimalText (h : Normal n) (hneg : n.neg = false) (hne : n.num ≠ [])
    (hany : (decimalText n n.len).any (fun c => c ≠ '0' && c ≠ '.') = true) :
    parseDecimal (decimalText n n.len) = n := by
  obtain ⟨i, hi⟩ : ∃ i, n.len = i + 1 :=
    Nat.exists_eq_succ_of_ne_zero fun h0 => hne (List.eq_nil_of_length_eq_zero h0)
  obtain ⟨text, htext⟩ := last_decimalText n i
  rw [← hi] at htext
  have hrev : (decimalText n n.len).reverse = digitChar (n.num.getD 0 0) :: text.reverse := by
    rw [htext, List.reverse_append]
    rfl
  have hfilter := filter_decimalText h hne
  have hchar := digitChar_eq (getD_isDigit h.digits 0)
  rw [hrev, List.filter_cons_of_pos (by simpa using (digit_ne hchar.2.1).2.2)] at hfilter
  have hn : n = { num := n.num, rdx := n.rdx } := by
    obtain ⟨num, rdx, neg⟩ := n
    dsimp only at hneg
    rw [hneg]
  rw [parseDecimal, hrev]
  dsimp only
  rw [if_pos hany, fractionLen_decimalText h hne, hfilter, map_decimalDigit h.digits, ← hn]
  split
  · next hnil =>
    rw [hnil, List.filter_nil] at hfilter
    obtain ⟨d, hd, -⟩ := List.map_eq_singleton_iff.mp hfilter.symm
    rw [hchar.2.2.2]
    conv => rhs; rw [hn]
    rw [hd]
    rfl
  · rfl

/-- **A decimal number is read back digit by digit.** -/
theorem numParse_decimal (h : Normal n) (hneg : n.neg = false) (hne : n.num ≠ []) (fuel : ℕ) :
    numParse fuel (decimalText n n.len) 10 = .ok n := by
  obtain ⟨c, text, hc, hc0⟩ := head_decimalText h hne
  obtain ⟨d, hd, hd0⟩ := h.exists_ne hne
  have hdigit := digitChar_eq (h.digits d hd)
  have hd0' : digitChar d ≠ '0' := fun h0 => hd0 (hdigit.2.2.1.mp h0)
  have hdrop : (decimalText n n.len).dropWhile (· = '0') = decimalText n n.len := by
    rw [hc, List.dropWhile_cons_of_neg (by simpa using hc0)]
  have hall : ¬ (decimalText n n.len).all (fun c => c = '.' || c = '0') = true := by
    intro hall
    have := List.all_eq_true.mp hall _ (mem_decimalText h hne hd)
    rw [Bool.or_eq_true, decide_eq_true_eq, decide_eq_true_eq] at this
    exact this.elim (digit_ne hdigit.2.1).2.2 hd0'
  have hany : (decimalText n n.len).any (fun c => c ≠ '0' && c ≠ '.') = true := by
    refine List.any_eq_true.mpr ⟨_, mem_decimalText h hne hd, ?_⟩
    rw [Bool.and_eq_true]
    exact ⟨decide_eq_true hd0', decide_eq_true (digit_ne hdigit.2.1).2.2⟩
  rw [numParse, if_pos (strValid_decimalText h hne)]
  dsimp only
  rw [hdrop, if_neg hall, if_pos (Or.inl rfl), parseDecimal_decimalText h hneg hne hany]

end

/-! ### Numbers in a base -/

theorem hexdigit_eq {d : ℕ} (h : d < 16) : (isDigit (hexdigit d) || isUpper (hexdigit d)) = true ∧
    (hexdigit d = '0' ↔ d = 0) ∧ (∀ b, d < b → baseDigit b (hexdigit d) = d) ∧
    (d ≠ 0 → singleDigit (hexdigit d) = (ulong2num d).num) := by
  have hall : ∀ k : Fin 16, (isDigit (hexdigit k) || isUpper (hexdigit k)) = true ∧
      (hexdigit k = '0' ↔ k.val = 0) ∧
      (if (hexdigit k).toNat ≤ 57 then (hexdigit k).toNat - 48
        else (hexdigit k).toNat - 65 + 10) = k.val ∧
      (k.val ≠ 0 → singleDigit (hexdigit k) = (ulong2num k).num) := by decide
  obtain ⟨h1, h2, h3, h4⟩ := hall ⟨d, h⟩
  refine ⟨h1, h2, fun b hb => ?_, h4⟩
  rw [baseDigit, h3]
  exact Nat.min_eq_right (Nat.le_sub_one_of_lt hb)

section

variable {b : ℕ}

/-- **Reading digits multiplies by the base and adds.** -/
theorem parseInt_digits (hb : b ≤ 16) {ds : List ℕ} (h : ∀ d ∈ ds, d < b) (fuel acc : ℕ) :
    parseInt (fuel + 1) b (ulong2num acc) (ds.map hexdigit) =
      .ok (ulong2num (ds.foldl (fun r d => r * b + d) acc), none) := by
  induction ds generalizing acc with
  | nil => rfl
  | cons d ds ih =>
    have hd := h d List.mem_cons_self
    obtain ⟨h1, -, h3, -⟩ := hexdigit_eq (Nat.lt_of_lt_of_le hd hb)
    have hmul : mul (fuel + 1) (ulong2num acc) (ulong2num b) 0 = .ok (ulong2num (acc * b)) :=
      numM_ulong2num fuel acc (len_base_lt hb)
    rw [List.map_cons, parseInt, if_neg (digit_ne h1).2.2, hmul, h3 b hd]
    simp only [bind, Except.bind, add_ulong2num]
    exact ih (fun e he => h e (List.mem_cons_of_mem _ he)) (acc * b + d)

theorem foldl_digits (b m : ℕ) :
    (Nat.digits b m).reverse.foldl (fun r d => r * b + d) 0 = m := by
  have hstep : (fun (d r : ℕ) => r * b + d) = fun d r => d + b * r := by
    funext d r
    rw [Nat.mul_comm, Nat.add_comm]
  have hdigits := Nat.ofDigits_digits b m
  rw [Nat.ofDigits_eq_foldr] at hdigits
  rw [List.foldl_reverse, hstep]
  exact hdigits

theorem parseDecimal_single {m : ℕ} (hm : m ≠ 0) (h : m < 16) :
    parseDecimal [hexdigit m] = ulong2num m := by
  obtain ⟨h1, h2, -, h4⟩ := hexdigit_eq h
  have hpoint : hexdigit m ≠ '.' := (digit_ne h1).2.2
  have hany : [hexdigit m].any (fun c => c ≠ '0' && c ≠ '.') = true := by
    rw [List.any_cons, List.any_nil, Bool.or_false, Bool.and_eq_true]
    exact ⟨decide_eq_true (fun h0 => hm (h2.mp h0)), decide_eq_true hpoint⟩
  have hfrac : fractionLen [hexdigit m] = 0 := by
    rw [fractionLen, List.dropWhile_cons_of_pos (by simpa using hpoint)]
    rfl
  have hparse : parseDecimal [hexdigit m] =
      if [hexdigit m].any (fun c => c ≠ '0' && c ≠ '.') then
        { num := singleDigit (hexdigit m), rdx := fractionLen [hexdigit m] }
      else setToZero (fractionLen [hexdigit m]) := rfl
  rw [hparse, if_pos hany, hfrac, h4 hm]
  rfl

theorem strValid_digits (hb : 2 ≤ b) (hb' : b ≤ 16) (m : ℕ) :
    strValid false ((Nat.digits b m).reverse.map hexdigit) = true := by
  rw [← List.append_nil (List.map _ _), strValid_append]
  · rfl
  · intro c hc
    obtain ⟨d, hd, rfl⟩ := List.mem_map.mp hc
    have hlt : d < b := Nat.digits_lt_base hb (List.mem_reverse.mp hd)
    exact (hexdigit_eq (by omega)).1

/-- **An integer is read back in its base.** -/
theorem numParse_base (hb : 2 ≤ b) (hb' : b ≤ 16) (hten : b ≠ 10) {m : ℕ} (hm : m ≠ 0) (fuel : ℕ) :
    numParse (fuel + 1) ((Nat.digits b m).reverse.map hexdigit) b = .ok (ulong2num m) := by
  have hdigits : ∀ d ∈ (Nat.digits b m).reverse, d < b :=
    fun d hd => Nat.digits_lt_base hb (List.mem_reverse.mp hd)
  obtain ⟨d, ds, hds⟩ : ∃ d ds, (Nat.digits b m).reverse = d :: ds :=
    List.exists_cons_of_ne_nil fun hnil =>
      Nat.digits_ne_nil_iff_ne_zero.mpr hm (List.reverse_eq_nil_iff.mp hnil)
  have hlt : d < b := hdigits d (by rw [hds]; exact List.mem_cons_self)
  obtain ⟨h1, h2, -, -⟩ := hexdigit_eq (Nat.lt_of_lt_of_le hlt hb')
  have hd0 : hexdigit d ≠ '0' := by
    intro h0
    have hlast := Nat.getLast_digit_ne_zero b hm
    rw [List.getLast_eq_head_reverse] at hlast
    simp only [hds, List.head_cons] at hlast
    exact hlast (h2.mp h0)
  have hdrop : ((Nat.digits b m).reverse.map hexdigit).dropWhile (· = '0') =
      (Nat.digits b m).reverse.map hexdigit := by
    rw [hds, List.map_cons, List.dropWhile_cons_of_neg (by simpa using hd0)]
  have hall : ¬ ((Nat.digits b m).reverse.map hexdigit).all
      (fun c => c = '.' || c = '0') = true := by
    rw [hds, List.map_cons, List.all_cons, Bool.and_eq_true, Bool.or_eq_true, decide_eq_true_eq,
      decide_eq_true_eq]
    exact fun h => h.1.elim (digit_ne h1).2.2 hd0
  rw [numParse, if_pos (strValid_digits hb hb' m)]
  dsimp only
  rw [hdrop, if_neg hall]
  split
  · next hone =>
    have hlen := hone.resolve_left hten
    rw [hds, List.length_map, List.length_cons, Nat.succ.injEq, List.length_eq_zero_iff] at hlen
    have hfold := foldl_digits b m
    rw [hds, hlen] at hfold
    have hdm : d = m := by simpa using hfold
    rw [hds, hlen, hdm]
    exact congrArg Except.ok (parseDecimal_single hm (by omega))
  · have hparse := parseInt_digits hb' hdigits fuel 0
    rw [foldl_digits] at hparse
    rw [parseBase]
    have hzero : zero = ulong2num 0 := rfl
    simp only [bind, Except.bind, hzero, hparse]
    rfl

end

/-! ### Reading back -/

section

variable {n : BcNum} {b : ℕ}

theorem strValid_printedText (h : Normal n) (hb : 2 ≤ b) (hb' : b ≤ 16) :
    strValid false (printedText b n) = true := by
  unfold printedText
  split
  · decide
  · next hne =>
    split
    · exact strValid_decimalText h (num_ne_nil_of_len hne)
    · exact strValid_digits hb hb' _

theorem last_printedText (h : Normal n) (hb : 2 ≤ b) (hb' : b ≤ 16) :
    (printedText b n).getLast? ≠ some '.' := by
  unfold printedText
  split
  · decide
  · next hne =>
    split
    · obtain ⟨i, hi⟩ := Nat.exists_eq_succ_of_ne_zero hne
      obtain ⟨text, htext⟩ := last_decimalText n i
      rw [hi, htext, List.getLast?_concat]
      exact fun he => (digit_ne (digitChar_eq (getD_isDigit h.digits 0)).2.1).2.2
        (Option.some.inj he)
    · intro he
      obtain ⟨d, hd, hpoint⟩ := List.mem_map.mp (List.mem_of_getLast? he)
      have hlt : d < b := Nat.digits_lt_base hb (List.mem_reverse.mp hd)
      exact hexdigit_ne (by omega) hpoint

theorem numParse_printedText (h : Normal n) (hneg : n.neg = false) (hb : 2 ≤ b) (hb' : b ≤ 16)
    (hint : b = 10 ∨ n.rdx = 0) (fuel : ℕ) :
    ∃ m, numParse (fuel + 1) (printedText b n) b = .ok m ∧ m.value = n.value := by
  unfold printedText
  split
  · next h0 =>
    have hnil : n.num = [] := List.eq_nil_of_length_eq_zero h0
    refine ⟨zero, rfl, ?_⟩
    simp [BcNum.value, zero, setToZero, hnil]
  · next hne =>
    split
    · next hten =>
      rw [hten]
      exact ⟨n, numParse_decimal h hneg (num_ne_nil_of_len hne) _, rfl⟩
    · next hten =>
      have hn := h.eq_ulong2num (hint.resolve_left hten) hneg
      have hm : (val 10 n.num).toNat ≠ 0 := by
        intro h0
        rw [h0] at hn
        exact hne (by rw [hn]; rfl)
      exact ⟨_, numParse_base hb hb' hten hm fuel, by rw [← hn]⟩

theorem Broken.mem {text o : List Char} (h : Broken text o) {c : Char} (hc : c ∈ o) :
    c ∈ text ∨ c = '\\' ∨ c = '\n' := by
  induction h with
  | nil => cases hc
  | char d _ ih =>
    rcases List.mem_cons.mp hc with rfl | hc
    · exact Or.inl List.mem_cons_self
    · exact (ih hc).imp_left (List.mem_cons_of_mem _)
  | brk _ ih =>
    rcases List.mem_cons.mp hc with rfl | hc
    · exact Or.inr (Or.inl rfl)
    · rcases List.mem_cons.mp hc with rfl | hc
      · exact Or.inr (Or.inr rfl)
      · exact ih hc

theorem Started.broken {text o : List Char} (h : Started text o) : Broken text o := by
  induction h with
  | brk _ ih => exact ih.brk
  | digit _ hbroken => exact hbroken.char _
  | point _ hbroken => exact (hbroken.char _).char _

theorem Broken.length_le {text o : List Char} (h : Broken text o) : text.length ≤ o.length := by
  induction h with
  | nil => exact Nat.le_refl _
  | char _ _ ih => exact Nat.succ_le_succ ih
  | brk _ ih => exact Nat.le_succ_of_le (Nat.le_succ_of_le ih)

theorem plain_of_strValid {radix : Bool} {text : List Char} (h : strValid radix text = true) :
    Plain text := by
  induction text generalizing radix with
  | nil => exact nofun
  | cons c text ih =>
    intro d hd
    rcases List.mem_cons.mp hd with rfl | hd
    · rcases strValid_cons h with ⟨rfl, -, -⟩ | ⟨hdig, -, -⟩
      · decide
      · have hnul : d ≠ '\x00' := by
          rintro rfl
          exact absurd hdig (by decide)
        refine ⟨?_, hnul⟩
        rw [digit_iff] at hdig
        simp only [badInputByte, Bool.or_eq_false_iff, Bool.and_eq_false_iff,
          decide_eq_false_iff_not]
        exact ⟨Or.inl (Or.inl (Or.inl (by omega))), by omega⟩
    · rcases strValid_cons h with ⟨-, -, hrest⟩ | ⟨-, -, hrest⟩
      · exact ih hrest d hd
      · exact ih hrest d hd

/-- What is printed can be read: there is no binary byte in it. -/
theorem Broken.plain {text o : List Char} (h : Broken text o) (htext : Plain text)
    (newline : Bool) : Plain (o ++ if newline then ['\n'] else []) := by
  intro c hc
  rcases List.mem_append.mp hc with hc | hc
  · rcases h.mem hc with hc | rfl | rfl
    · exact htext c hc
    · decide
    · decide
  · cases newline with
    | false => cases hc
    | true =>
      rw [List.mem_singleton.mp hc]
      decide

/-- The text is before the lexer: in its buffer, or in the file it reads. -/
theorem Lexer.holds_of_input {s : Lexer} {out : List Char} (h : Plain out)
    (hs : (s.inbuf = out ∧ s.inputFp = none) ∨ (s.inbuf = [] ∧ s.inputFp = some out)) :
    s.Holds out := by
  rcases hs with ⟨h1, h2⟩ | ⟨h1, h2⟩
  · refine ⟨?_, h, Or.inl ?_⟩
    · rw [h1, Lexer.file, h2]
      exact List.append_nil _
    · rw [Lexer.file, h2]
      rfl
  · refine ⟨?_, h, Or.inr (Or.inl h1)⟩
    rw [h1, Lexer.file, h2]
    rfl

/-- `out` is what is printed, with its line breaks, and before the lexer as a string or as a file
it is a number of the same value. -/
def ReadsBack (n : BcNum) (p : Prog) (newline : Bool) : Prop :=
  ∃ q out, q.out = p.out ++ out ∧
    (∀ fuel, 4 * n.len + 10 ≤ fuel → numPrint fuel n newline p = .ok q) ∧
    ∀ fuel, out.length < fuel → ∀ s : Lexer,
      (s.inbuf = out ∧ s.inputFp = none) ∨ (s.inbuf = [] ∧ s.inputFp = some out) →
      ∃ text t m, lexNext fuel s = .ok (.number text, t) ∧
        numParse fuel text p.obase = .ok m ∧ m.value = n.value

theorem readsBack_of_column (h : Normal n) (hneg : n.neg = false) {p : Prog} (hb : 2 ≤ p.obase)
    (hb' : p.obase ≤ 16) (hint : p.obase = 10 ∨ n.rdx = 0) (hlen : 2 ≤ p.len)
    (hcol : n.rdx = 0 ∨ n.rdx ≠ n.len ∨ startColumn p + 2 ≠ p.len) (newline : Bool) :
    ReadsBack n p newline := by
  obtain ⟨q, o, hout, hs, hq⟩ := numPrint_started h hneg hlen hcol hb hb' hint newline
  have hvalid := strValid_printedText h hb hb'
  have hstop : Stops (if newline then ['\n'] else []) := by
    cases newline with
    | false => exact Or.inl rfl
    | true => exact Or.inr ⟨[], rfl⟩
  refine ⟨q, _, hout, hq, fun fuel hfuel s hs' => ?_⟩
  have hholds := Lexer.holds_of_input
    (hs.broken.plain (plain_of_strValid hvalid) newline) hs'
  rw [List.length_append] at hfuel
  have hlength := hs.broken.length_le
  obtain ⟨t, ht⟩ := lexNext_started hs hstop hvalid (last_printedText h hb hb') hholds
    (by omega : o.length < fuel) (by omega)
  obtain ⟨fuel, rfl⟩ : ∃ f, fuel = f + 1 := ⟨fuel - 1, by omega⟩
  obtain ⟨m, hm, hvalue⟩ := numParse_printedText h hneg hb hb' hint fuel
  exact ⟨_, t, m, ht, hm, hvalue⟩

/-- A point with a break behind it is no number. -/
theorem lexNext_point {fuel : ℕ} {o : List Char} (hfuel : 1 < fuel) :
    lexNext fuel ⟨'.' :: '\\' :: '\n' :: o, none, false, 0⟩ =
      .ok (.last, ⟨'\\' :: '\n' :: o, none, false, 0⟩) := by
  obtain ⟨fuel, rfl⟩ : ∃ f, fuel = f + 1 := ⟨fuel - 1, by omega⟩
  rfl

theorem lexNext_break_point {fuel : ℕ} {o : List Char} (hfuel : 1 < fuel) :
    lexNext fuel ⟨'\\' :: '\n' :: '.' :: '\\' :: '\n' :: o, none, false, 0⟩ =
      .ok (.last, ⟨'\\' :: '\n' :: o, none, false, 0⟩) := by
  obtain ⟨fuel, rfl⟩ : ∃ f, fuel = f + 2 := ⟨fuel - 2, by omega⟩
  rfl

/-- A number that starts with its point two columns before the end of the line is broken behind
the point. -/
theorem printDecimal_point (hneg : n.neg = false) {p : Prog} (hlen : 2 ≤ p.len)
    (hne : n.rdx ≠ 0) (heq : n.rdx = n.len) (hcol : startColumn p + 2 = p.len) :
    ∃ o, (printDecimal n (printNewline p)).out =
      (printNewline p).out ++ '.' :: '\\' :: '\n' :: o := by
  obtain ⟨i, hi⟩ := Nat.exists_eq_succ_of_ne_zero (heq ▸ hne)
  have hrun : printDecimal n (printNewline p) = printDecimalLoop n i
      (printHex (n.num.getD i 0).toNat 1 true (printNewline p)) := by
    rw [printDecimal, hi, printDecimalLoop, printSign, hneg, if_neg (by decide),
      decide_eq_true (by omega : i + 1 = n.rdx)]
  have hmove : ∀ q : Prog, q.nchars + 1 = q.len - 1 →
      (printNewline (advance 1 (putchar '.' q))).out = q.out ++ ['.', '\\', '\n'] := by
    intro q hq
    have hfull : (advance 1 (putchar '.' q)).nchars = (advance 1 (putchar '.' q)).len - 1 := hq
    rw [printNewline, if_pos hfull]
    simp [putchar, advance]
  have hhex : (printHex (n.num.getD i 0).toNat 1 true (printNewline p)).out =
      (printNewline p).out ++ ['.', '\\', '\n'] ++ [hexdigit (n.num.getD i 0).toNat] := by
    unfold printHex printPoint
    rw [if_pos rfl, printNewline_printNewline hlen]
    exact congrArg (· ++ _) (hmove _ ((startColumn_iff p).mpr hcol))
  obtain ⟨o, ho, -⟩ := (prints_printDecimalLoop n i
    (printHex (n.num.getD i 0).toNat 1 true (printNewline p))).out
  refine ⟨hexdigit (n.num.getD i 0).toNat :: o, ?_⟩
  rw [hrun, ho, hhex]
  simp

/-- **bc reads back what it prints**, but for a number that starts with its point where the line
has room for the point and the backslash only. -/
theorem readsBack_iff (h : Normal n) (hneg : n.neg = false) {p : Prog} (hb : 2 ≤ p.obase)
    (hb' : p.obase ≤ 16) (hint : p.obase = 10 ∨ n.rdx = 0) (hlen : 2 ≤ p.len) (newline : Bool) :
    ReadsBack n p newline ↔ n.rdx = 0 ∨ n.rdx ≠ n.len ∨ startColumn p + 2 ≠ p.len := by
  refine ⟨fun hback => ?_, fun hcol => readsBack_of_column h hneg hb hb' hint hlen hcol newline⟩
  by_contra hnot
  obtain ⟨hne, hnot⟩ := not_or.mp hnot
  obtain ⟨heq, hcol⟩ := not_or.mp hnot
  obtain ⟨o, ho⟩ := printDecimal_point hneg hlen hne (not_not.mp heq) (not_not.mp hcol)
  obtain ⟨q, out, hout, hq, hread⟩ := hback
  have hten := hint.resolve_right hne
  have hlen0 : n.len ≠ 0 := not_not.mp heq ▸ hne
  have hvalue : ∀ fuel, printValue fuel n (printNewline p) =
      .ok (printDecimal n (printNewline p)) := by
    intro fuel
    rw [printValue, if_neg hlen0, if_pos ((prints_printNewline p).obase.trans hten)]
  have hq' := hq _ le_rfl
  rw [numPrint, hvalue] at hq'
  obtain ⟨o', ho'⟩ : ∃ o', q.out = (printNewline p).out ++ '.' :: '\\' :: '\n' :: o' := by
    rw [← Except.ok.inj hq']
    cases newline with
    | false => exact ⟨o, ho⟩
    | true => exact ⟨o ++ ['\n'], by simp [putchar, ho]⟩
  obtain ⟨text, t, m, hlex, -⟩ := hread (out.length + 2) (by omega) ⟨out, none, false, 0⟩
    (Or.inl ⟨rfl, rfl⟩)
  by_cases hbreak : p.nchars = p.len - 1
  · have hbegin : (printNewline p).out = p.out ++ ['\\', '\n'] := by
      rw [printNewline, if_pos hbreak]
      exact List.append_assoc _ _ _
    rw [hbegin, List.append_assoc, hout] at ho'
    rw [List.append_cancel_left ho'] at hlex
    have hlast := hlex.symm.trans (lexNext_break_point (by omega))
    cases hlast
  · have hbegin : printNewline p = p := if_neg hbreak
    rw [hbegin, hout] at ho'
    rw [List.append_cancel_left ho'] at hlex
    have hlast := hlex.symm.trans (lexNext_point (by omega))
    cases hlast

end

/-- The number `.05` on lines with room for three characters. -/
theorem readsBack_iff_twentieth :
    ReadsBack { num := [5, 0], rdx := 2 } { len := 3, nchars := 0, obase := 10, out := [] } true ↔
      ({ num := [5, 0], rdx := 2 } : BcNum).rdx = 0 ∨ ({ num := [5, 0], rdx := 2 } : BcNum).rdx ≠ 2 ∨
        startColumn { len := 3, nchars := 0, obase := 10, out := [] } + 2 ≠ 3 :=
  readsBack_iff (n := { num := [5, 0], rdx := 2 }) ⟨by unfold IsDigits; decide, by decide⟩ rfl
    (p := { len := 3, nchars := 0, obase := 10, out := [] }) (by decide) (by decide) (Or.inl rfl)
    (by decide) true

/-- The same number where one character stands in the line already. -/
theorem point_not_read_back :
    ¬ ReadsBack { num := [5, 0], rdx := 2 }
      { len := 3, nchars := 1, obase := 10, out := [] } false := by
  rintro ⟨q, out, hout, hq, hread⟩
  have hq' := hq _ le_rfl
  have hrun : numPrint 18 { num := [5, 0], rdx := 2 } false
      { len := 3, nchars := 1, obase := 10, out := [] } =
      .ok ⟨3, 2, 10, ".\\\n05".toList⟩ := by rfl
  have hq18 : q = ⟨3, 2, 10, ".\\\n05".toList⟩ := (Except.ok.inj (hrun.symm.trans hq')).symm
  obtain rfl : ".\\\n05".toList = out := by
    rw [hq18] at hout
    exact hout
  obtain ⟨text, t, m, hlex, -⟩ := hread 6 (by decide)
    ⟨".\\\n05".toList, none, false, 0⟩ (Or.inl ⟨rfl, rfl⟩)
  cases hlex

end Rustybox.Bc

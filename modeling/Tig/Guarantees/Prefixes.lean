import Tig.Store.Shards

set_option relaxedAutoImplicit false
set_option autoImplicit false

/-!
# A prefix finds the one object that it fits

Whatever a user gives, a lookup returns the object of which the lower-cased text is a prefix, if the
text has four digits and there is exactly one such object, and an error otherwise. It never panics:
what is sliced has ASCII characters only, and enough of them.

## Main definitions

* `Tig.Matches` — an object is stored, and its hash starts with the digits.

## Main results

* `Tig.collectMatches_eq` — the loop finds the first five names that fit.
* `Tig.mem_matches` — the names that fit are those of the objects that match.
* `Tig.resolvePrefix_unique` — a lookup finds exactly the unique match.
-/

namespace Tig

/-- An object is stored, and its hash starts with the digits. -/
def Matches (s : Shards) (digits : String) (h : Hash) : Prop :=
  s.objectExists h = true ∧ digits.toList <+: h.toHex.toList

/-! ## Digits -/

theorem IsHexDigit.toNat_lt {c : Char} (h : IsHexDigit c) : c.toNat < 128 := by
  obtain ⟨n, hn, rfl⟩ := h
  revert n
  decide

theorem IsHexDigit.ne_dot {c : Char} (h : IsHexDigit c) : c ≠ '.' := by
  obtain ⟨n, hn, rfl⟩ := h
  revert n
  decide

theorem toNat_lt_of_hexdigit {c : Char} (h : isAsciiHexdigit c = true) : c.toNat < 128 := by
  simp only [isAsciiHexdigit, Bool.or_eq_true, Bool.and_eq_true, decide_eq_true_eq] at h
  omega

/-- Lower case of an ASCII character is a digit exactly when the character is one. -/
theorem isAsciiHexdigit_toLower {c : Char} (h : c.toNat < 128) :
    isAsciiHexdigit c.toLower = isAsciiHexdigit c ∧
      (isAsciiHexdigit c = true → IsHexDigit c.toLower) := by
  have hall : ∀ n < 128, isAsciiHexdigit (Char.ofNat n).toLower = isAsciiHexdigit (Char.ofNat n) ∧
      (isAsciiHexdigit (Char.ofNat n) = true →
        ∃ m < 16, Nat.digitChar m = (Char.ofNat n).toLower) := by
    decide +kernel
  have hc := hall c.toNat h
  rwa [Char.ofNat_toNat] at hc

theorem utf8Size_ascii {c : Char} (h : c.toNat < 128) : c.utf8Size = 1 := by
  have hle : c.val ≤ 0x7f := by
    rw [UInt32.le_iff_toNat_le]
    exact Nat.le_of_lt_succ h
  exact if_pos hle

/-- Strings of ASCII characters have a byte for each character. -/
theorem length_encode_ascii {s : String} (h : ∀ c ∈ s.toList, c.toNat < 128) :
    (Utf8.encode s).length = s.toList.length := by
  unfold Utf8.encode
  revert h
  induction s.toList with
  | nil => exact fun _ => rfl
  | cons c cs ih =>
    intro h
    obtain ⟨hc, hcs⟩ := List.forall_mem_cons.mp h
    rw [List.flatMap_cons, List.length_append, ih hcs, String.length_utf8EncodeChar,
      utf8Size_ascii hc, List.length_cons, Nat.add_comm]

theorem length_le_length_encode (s : String) : s.toList.length ≤ (Utf8.encode s).length := by
  unfold Utf8.encode
  induction s.toList with
  | nil => exact Nat.zero_le _
  | cons c cs ih =>
    have hpos := c.utf8Size_pos
    rw [List.flatMap_cons, List.length_append, String.length_utf8EncodeChar, List.length_cons]
    omega

theorem splitAtByte_ascii {cs : List Char} (h : ∀ c ∈ cs, c.toNat < 128) {n : Nat}
    (hn : n ≤ cs.length) : splitAtByte n cs = some (cs.take n, cs.drop n) := by
  induction cs generalizing n with
  | nil =>
    obtain rfl : n = 0 := Nat.le_zero.mp hn
    rfl
  | cons c cs ih =>
    obtain ⟨hc, hcs⟩ := List.forall_mem_cons.mp h
    cases n with
    | zero => rfl
    | succ n =>
      rw [splitAtByte, utf8Size_ascii hc, if_pos (by omega), Nat.add_sub_cancel,
        ih hcs (Nat.le_of_succ_le_succ hn)]
      rfl

/-! ## The names that fit -/

/-- A name is not hidden and starts with a prefix. -/
def fits (restPrefix name : String) : Bool :=
  !".".toList.isPrefixOf name.toList && restPrefix.toList.isPrefixOf name.toList

/-- The loop finds the first five names that fit. -/
theorem collectMatches_eq (fanout restPrefix : String) {found : List String}
    (hfound : found.length ≤ 4) (names : List String) :
    collectMatches fanout restPrefix found names =
      (found ++ (names.filter (fits restPrefix)).map (fanout ++ ·)).take 5 := by
  induction names generalizing found with
  | nil =>
    rw [collectMatches, List.filter_nil, List.map_nil, List.append_nil,
      List.take_of_length_le (by omega)]
  | cons name names ih =>
    by_cases hdot : ".".toList.isPrefixOf name.toList = true
    · have hno : fits restPrefix name = false := by
        rw [fits, hdot]
        rfl
      rw [collectMatches, if_pos hdot, List.filter_cons_of_neg (by simp [hno]), ih hfound]
    · by_cases hprefix : restPrefix.toList.isPrefixOf name.toList = true
      · have hyes : fits restPrefix name = true := by
          rw [fits, hprefix, Bool.eq_false_iff.mpr hdot]
          rfl
        have happ := List.append_cons found (fanout ++ name)
          ((names.filter (fits restPrefix)).map (fanout ++ ·))
        have hlen : (found ++ [fanout ++ name]).length = found.length + 1 := by simp
        rw [collectMatches, if_neg hdot, if_pos hprefix, List.filter_cons_of_pos hyes,
          List.map_cons, happ]
        dsimp only
        split_ifs with hfull
        · -- the fifth name: nothing after it is taken
          rw [List.take_left' (by omega)]
        · exact ih (by omega)
      · have hno : fits restPrefix name = false := by
          rw [fits, Bool.eq_false_iff.mpr hprefix, Bool.and_false]
        rw [collectMatches, if_neg hdot, if_neg hprefix,
          List.filter_cons_of_neg (by simp [hno]), ih hfound]

/-! ## The objects that match -/

section Matches

variable {s : Shards} (hs : s.Listed) {fanout restPrefix : String} {names : List String}

theorem isHexDigit_rest (h : Hash) : ∀ c ∈ h.rest.toList, IsHexDigit c :=
  fun _ hc => isHexDigit_of_mem hc

/-- The name of a temporary file is hidden. -/
theorem isPrefixOf_tmpName (h : Hash) :
    ".".toList.isPrefixOf (Shards.tmpName h).toList = true := by
  rw [Shards.tmpName, String.toList_append]
  rfl

/-- A name made of digits is not hidden. -/
theorem not_isPrefixOf_dot {name : String} (h : ∀ c ∈ name.toList, IsHexDigit c) :
    ".".toList.isPrefixOf name.toList = false := by
  rw [Bool.eq_false_iff]
  intro hdot
  have hmem := (List.isPrefixOf_iff_prefix.mp hdot).subset (List.mem_singleton_self '.')
  exact (h '.' hmem).ne_dot rfl

/-- Of an object that matches, the first two digits name the directory, and the others start the
name of the file. -/
theorem Matches.split (hlen : fanout.toList.length = 2) {h : Hash}
    (hmatch : Matches s (fanout ++ restPrefix) h) :
    h.fanout = fanout ∧ restPrefix.toList <+: h.rest.toList := by
  have hprefix := hmatch.2
  rw [h.toHex_eq, String.toList_append, String.toList_append] at hprefix
  have hfan : fanout = h.fanout := by
    have htake := List.prefix_iff_eq_take.mp ((List.prefix_append _ _).trans hprefix)
    rw [hlen, ← h.length_fanout, List.take_left] at htake
    exact String.toList_inj.mp htake
  subst hfan
  exact ⟨rfl, (List.prefix_append_right_inj _).mp hprefix⟩

include hs in
/-- **The names that fit are those of the objects that match.** -/
theorem mem_matches (hlen : fanout.toList.length = 2) (hnames : s fanout = some names)
    {found : String} :
    found ∈ (names.filter (fits restPrefix)).map (fanout ++ ·) ↔
      ∃ h, Matches s (fanout ++ restPrefix) h ∧ h.toHex = found := by
  rw [List.mem_map]
  constructor
  · rintro ⟨name, hmem, rfl⟩
    obtain ⟨hname, hfits⟩ := List.mem_filter.mp hmem
    rw [fits, Bool.and_eq_true, Bool.not_eq_true'] at hfits
    obtain ⟨hdot, hprefix⟩ := hfits
    rcases (hs fanout names hnames).2 name hname with ⟨h, rfl, rfl⟩ | ⟨h, rfl⟩
    · refine ⟨h, ⟨?_, ?_⟩, h.toHex_eq⟩
      · rw [Shards.objectExists, hnames]
        exact decide_eq_true hname
      · rw [h.toHex_eq, String.toList_append, String.toList_append]
        exact (List.prefix_append_right_inj _).mpr (List.isPrefixOf_iff_prefix.mp hprefix)
    · rw [isPrefixOf_tmpName] at hdot
      cases hdot
  · rintro ⟨h, hmatch, rfl⟩
    obtain ⟨rfl, hrest⟩ := hmatch.split hlen
    have hexists := hmatch.1
    rw [Shards.objectExists, hnames] at hexists
    refine ⟨h.rest, List.mem_filter.mpr ⟨of_decide_eq_true hexists, ?_⟩, h.toHex_eq.symm⟩
    rw [fits, List.isPrefixOf_iff_prefix.mpr hrest, Bool.and_true, Bool.not_eq_true']
    exact not_isPrefixOf_dot (isHexDigit_rest h)

include hs in
theorem nodup_matches (hnames : s fanout = some names) :
    ((names.filter (fits restPrefix)).map (fanout ++ ·)).Nodup := by
  refine ((hs fanout names hnames).1.filter _).map fun a b hab => ?_
  have htoList := congrArg String.toList hab
  rw [String.toList_append, String.toList_append] at htoList
  exact String.toList_inj.mp (List.append_cancel_left htoList)

end Matches

/-- An object is stored after a put when it was put or was stored before. -/
theorem Shards.objectExists_put {s : Shards} {h h' : Hash} :
    (s.put h).objectExists h' = true ↔ h' = h ∨ s.objectExists h' = true := by
  unfold Shards.put
  split_ifs with hexists
  · exact ⟨Or.inr, by rintro (rfl | hold) <;> assumption⟩
  have htmp : h'.rest ≠ tmpName h := by
    intro heq
    have hdot := not_isPrefixOf_dot (isHexDigit_rest h')
    rw [heq, isPrefixOf_tmpName] at hdot
    cases hdot
  rw [Shards.putUntil, if_neg hexists]
  by_cases hdir : h'.fanout = h.fanout
  · have hrest : h'.rest = h.rest ↔ h' = h := by
      refine ⟨fun heq => Hash.toHex_injective ?_, congrArg Hash.rest⟩
      rw [h'.toHex_eq, h.toHex_eq, hdir, heq]
    have hold : s.objectExists h' = true ↔ h'.rest ∈ (s h.fanout).getD [] := by
      rw [Shards.objectExists, hdir]
      cases s h.fanout <;> simp
    rw [hold, ← hrest]
    simp only [Shards.objectExists, Shards.rename, Shards.createFile, Shards.createDirAll, hdir,
      if_true, Option.map_some, decide_eq_true_eq]
    split_ifs with hmem
    all_goals
      simp only [List.mem_append, List.mem_filter, List.mem_singleton, decide_eq_true_eq]
      tauto
  · have hne : h' ≠ h := fun heq => hdir (congrArg Hash.fanout heq)
    simp [Shards.objectExists, Shards.rename, Shards.createFile, Shards.createDirAll, hdir, hne]

/-! ## The lookup -/

/-- Slices at 16 of the forms of hashes do not panic. -/
theorem previews_ok {found : List String} (h : ∀ x ∈ found, ∃ h : Hash, h.toHex = x) :
    ∃ preview, previews found = .ok preview := by
  induction found with
  | nil => exact ⟨[], rfl⟩
  | cons x found ih =>
    obtain ⟨⟨hash, rfl⟩, hfound⟩ := List.forall_mem_cons.mp h
    obtain ⟨preview, hpreview⟩ := ih hfound
    have hascii : ∀ c ∈ hash.toHex.toList, c.toNat < 128 :=
      fun c hc => (isHexDigit_of_mem hc).toNat_lt
    have hlen : 16 ≤ hash.toHex.toList.length := by
      rw [hash.length_toHex]
      decide
    rw [previews, sliceTo, splitAtByte_ascii hascii hlen, hpreview]
    exact ⟨_, rfl⟩

/-- With digits in lower case, four at least, the lookup returns the unique match. -/
theorem resolveDigits_spec {s : Shards} (hs : s.Listed) {digits : String}
    (hdigits : ∀ c ∈ digits.toList, IsHexDigit c) (hlen : 4 ≤ digits.toList.length) :
    (∀ h, resolveDigits s digits = .ok h ↔
      Matches s digits h ∧ ∀ h', Matches s digits h' → h' = h) ∧
    resolveDigits s digits ≠ .error .panic := by
  have hascii : ∀ c ∈ digits.toList, c.toNat < 128 := fun c hc => (hdigits c hc).toNat_lt
  rw [resolveDigits, length_encode_ascii hascii]
  split_ifs with hfull
  · -- the whole hash is given
    obtain ⟨hash, rfl⟩ := Hash.exists_toHex hdigits hfull
    have honly : ∀ h, Matches s hash.toHex h → h = hash := by
      rintro h ⟨-, hprefix⟩
      have heq := hprefix.eq_of_length (by rw [hash.length_toHex, h.length_toHex])
      exact Hash.toHex_injective (String.toList_inj.mp heq.symm)
    rw [Hash.fromHex_toHex]
    dsimp only
    split_ifs with hexists
    · have hmatch : Matches s hash.toHex hash := ⟨hexists, List.prefix_refl _⟩
      refine ⟨fun h => ⟨?_, fun hm => ?_⟩, nofun⟩
      · rintro ⟨⟩
        exact ⟨hmatch, honly⟩
      · rw [honly h hm.1]
    · refine ⟨fun h => ⟨nofun, fun hm => ?_⟩, nofun⟩
      obtain rfl := honly h hm.1
      exact absurd hm.1.1 hexists
  · -- the first two digits name a directory
    rw [sliceTo, sliceFrom, splitAtByte_ascii hascii (by omega)]
    simp only [bind, Except.bind]
    have hsplit : digits =
        String.ofList (digits.toList.take 2) ++ String.ofList (digits.toList.drop 2) := by
      rw [← String.ofList_append, List.take_append_drop, String.ofList_toList]
    generalize hfan : String.ofList (digits.toList.take 2) = fanout at hsplit ⊢
    generalize String.ofList (digits.toList.drop 2) = restPrefix at hsplit ⊢
    have hfanout : fanout.toList.length = 2 := by
      rw [← hfan, String.toList_ofList, List.length_take]
      omega
    cases hnames : s fanout with
    | none =>
      refine ⟨fun h => ⟨nofun, fun hm => ?_⟩, nofun⟩
      rw [hsplit] at hm
      obtain ⟨rfl, -⟩ := hm.1.split hfanout
      have hexists := hm.1.1
      rw [Shards.objectExists, hnames] at hexists
      cases hexists
    | some names =>
      have hmem : ∀ found, found ∈ (names.filter (fits restPrefix)).map (fanout ++ ·) ↔
          ∃ h, Matches s digits h ∧ h.toHex = found := by
        rw [hsplit]
        exact fun found => mem_matches hs hfanout hnames
      have hnodup : ((names.filter (fits restPrefix)).map (fanout ++ ·)).Nodup :=
        nodup_matches hs hnames
      dsimp only
      rw [collectMatches_eq _ _ (Nat.zero_le _), List.nil_append]
      generalize (names.filter (fits restPrefix)).map (fanout ++ ·) = found at hmem hnodup
      match found with
      | [] =>
        refine ⟨fun h => ⟨nofun, fun hm => ?_⟩, nofun⟩
        exact absurd ((hmem _).mpr ⟨h, hm.1, rfl⟩) List.not_mem_nil
      | [x] =>
        obtain ⟨hash, hmatch, rfl⟩ := (hmem x).mp (List.mem_singleton_self x)
        have honly : ∀ h, Matches s digits h → h = hash := fun h hm =>
          Hash.toHex_injective (List.mem_singleton.mp ((hmem _).mpr ⟨h, hm, rfl⟩))
        simp only [List.take_succ_cons, List.take_nil, Hash.fromHex_toHex, Except.mapError]
        refine ⟨fun h => ⟨?_, fun hm => ?_⟩, nofun⟩
        · rintro ⟨⟩
          exact ⟨hmatch, honly⟩
        · rw [honly h hm.1]
      | x :: y :: found =>
        obtain ⟨hx, hmatchx, hxhex⟩ := (hmem x).mp List.mem_cons_self
        obtain ⟨hy, hmatchy, hyhex⟩ := (hmem y).mp (List.mem_cons_of_mem _ List.mem_cons_self)
        have hne : x ≠ y := List.rel_of_pairwise_cons hnodup List.mem_cons_self
        obtain ⟨preview, hpreview⟩ : ∃ preview, previews (x :: y :: found.take 3) = .ok preview := by
          refine previews_ok fun z hz => ?_
          obtain ⟨h, -, hhex⟩ := (hmem z).mp ((List.take_sublist 5 (x :: y :: found)).subset hz)
          exact ⟨h, hhex⟩
        simp only [List.take_succ_cons, hpreview]
        refine ⟨fun h => ⟨nofun, fun hm => ?_⟩, nofun⟩
        have hsame : hx = hy := (hm.2 hx hmatchx).trans (hm.2 hy hmatchy).symm
        exact absurd (hxhex.symm.trans (hsame ▸ hyhex)) hne

/-- **A prefix finds exactly the unique match.** In a store that puts have filled, with what puts
that were cut short have left, and for any text: the lookup returns an object exactly when the text
has at least four characters, all of them hexadecimal digits, and the object is the only one stored
whose hash starts with the text in lower case. Otherwise it returns an error; it does not panic. -/
theorem resolvePrefix_unique {lower : String → String} (hlower : Lowercases lower) {s : Shards}
    (hs : Filled s) (given : String) :
    (∀ h, resolvePrefix lower s given = .ok h ↔
      4 ≤ given.toList.length ∧ (∀ c ∈ given.toList, isAsciiHexdigit c = true) ∧
        Matches s (lower given) h ∧ ∀ h', Matches s (lower given) h' → h' = h) ∧
    resolvePrefix lower s given ≠ .error .panic := by
  rw [resolvePrefix]
  split_ifs with hshort
  · refine ⟨fun h => ⟨nofun, fun hm => ?_⟩, nofun⟩
    have hle := length_le_length_encode given
    omega
  dsimp only
  by_cases hhex : ∀ c ∈ given.toList, isAsciiHexdigit c = true
  · have hascii : ∀ c ∈ given.toList, c.toNat < 128 := fun c hc => toNat_lt_of_hexdigit (hhex c hc)
    have hlowered := hlower.ascii given hascii
    have hdigits : ∀ c ∈ (lower given).toList, IsHexDigit c := by
      rw [hlowered, String.toList_ofList]
      exact List.forall_mem_map.mpr fun c hc => (isAsciiHexdigit_toLower (hascii c hc)).2 (hhex c hc)
    have hall : (lower given).toList.all isAsciiHexdigit = true := by
      rw [hlowered, String.toList_ofList, List.all_map, List.all_eq_true]
      exact fun c hc => (isAsciiHexdigit_toLower (hascii c hc)).1.trans (hhex c hc)
    have hlen : 4 ≤ given.toList.length := by
      rw [length_encode_ascii hascii] at hshort
      omega
    have hlen' : 4 ≤ (lower given).toList.length := by
      rwa [hlowered, String.toList_ofList, List.length_map]
    rw [hall, if_neg (by decide)]
    obtain ⟨hok, hpanic⟩ := resolveDigits_spec hs.listed hdigits hlen'
    refine ⟨fun h => (hok h).trans ⟨fun hm => ⟨hlen, hhex, hm⟩, fun hm => hm.2.2⟩, hpanic⟩
  · have hall : (lower given).toList.all isAsciiHexdigit = false := by
      by_cases hascii : ∀ c ∈ given.toList, c.toNat < 128
      · rw [hlower.ascii given hascii, String.toList_ofList, List.all_map, Bool.eq_false_iff]
        refine fun hall => hhex fun c hc => ?_
        rw [← (isAsciiHexdigit_toLower (hascii c hc)).1]
        exact List.all_eq_true.mp hall c hc
      · push Not at hascii
        exact hlower.other given hascii
    rw [if_pos hall]
    exact ⟨fun h => ⟨nofun, fun hm => absurd hm.2.1 hhex⟩, nofun⟩

/-- The hash of a blob with the bytes of `hello`. -/
def helloHash : Hash where
  bytes := [0x05, 0xf6, 0xc4, 0x1d, 0x2f, 0x5e, 0xa3, 0x25, 0xde, 0xe9, 0x6d,
    0x79, 0xca, 0x96, 0xa7, 0x1d, 0x0a, 0xa8, 0xa1, 0xb3, 0x93, 0xa3,
    0x1c, 0x05, 0x14, 0x35, 0xac, 0x08, 0xa8, 0x7f, 0x37, 0x3a]
  length_bytes := rfl

/-- Lower case of ASCII letters; other characters are left alone. -/
def asciiLower (s : String) : String := String.ofList (s.toList.map Char.toLower)

theorem asciiLower_lowercases : Lowercases asciiLower where
  ascii _ _ := rfl
  other s h := by
    obtain ⟨c, hc, hge⟩ := h
    rw [asciiLower, String.toList_ofList, List.all_map, Bool.eq_false_iff]
    intro hall
    have hdigit : isAsciiHexdigit c.toLower = true := List.all_eq_true.mp hall c hc
    have hsame : c.toLower = c := by
      refine dif_neg fun hle => ?_
      have hz : c.toNat ≤ 90 := UInt32.le_iff_toNat_le.mp hle.2
      omega
    rw [hsame] at hdigit
    have := toNat_lt_of_hexdigit hdigit
    omega

theorem asciiLower_05F6 : (asciiLower "05F6").toList = ['0', '5', 'f', '6'] := by
  rw [asciiLower, String.toList_ofList]
  rfl

/-- The first four digits of the only object stored, with a capital letter. -/
theorem resolvePrefix_helloHash :
    resolvePrefix asciiLower (Shards.put (fun _ => none) helloHash) "05F6" = .ok helloHash := by
  have hlist : "05F6".toList = ['0', '5', 'F', '6'] := rfl
  refine ((resolvePrefix_unique asciiLower_lowercases (.put helloHash .empty) "05F6").1
    helloHash).mpr ⟨?_, ?_, ⟨?_, ?_⟩, fun h' hm => ?_⟩
  · rw [hlist]
    exact Nat.le_refl 4
  · rw [hlist]
    simp [isAsciiHexdigit]
  · exact Shards.objectExists_put.mpr (Or.inl rfl)
  · rw [asciiLower_05F6, Hash.toHex, hexEncode, String.toList_ofList]
    exact ⟨_, rfl⟩
  · exact (Shards.objectExists_put.mp hm.1).resolve_right fun h => by cases h

end Tig

import Conformance.Proofs.KeyText
import Conformance.Proofs.Provenance

/-!
# What a location tells

The words for a location are read from their end. What an entry adds is closed by a bracket,
or it is a word behind a point; in either case it tells its key and where it begins
(`Key.trail_cancel`). Taken off one by one, the entries leave what the words start with. Under
a root that is the name of the root, which cannot be taken for an entry if it is an identifier:

> `Path.location?_root_eq_iff`: under such names, paths with the same location are the same.

Without a root the words start with a bare key. If that is a number with a point in it, the
places behind the point look like an entry of the integer before it:

> `Path.location?_through_eq_iff`: without a root, paths with the same location are the same, or
> one has an integer and a word where the other has a number.
-/

namespace Conformance

/-- A character of an identifier. -/
def isWordChar (c : Char) : Bool := c.isAlphanum || c == '_'

theorem isIdentifier_iff {s : String} :
    isIdentifier s = true ↔ s.toList ≠ [] ∧ s.toList.all isWordChar = true := by
  rw [isIdentifier, Bool.and_eq_true, Bool.not_eq_eq_eq_not, Bool.not_true,
    List.isEmpty_eq_false_iff]
  rfl

theorem endsIn_of_isIdentifier {s : String} (h : isIdentifier s = true) :
    EndsIn isWordChar s.toList :=
  endsIn_of_all (isIdentifier_iff.mp h).1 (isIdentifier_iff.mp h).2

/-- A word behind a point ends what it is added to. -/
theorem endsIn_append_point {s : String} (h : isIdentifier s = true) (a : List Char) :
    EndsIn isWordChar (a ++ '.' :: s.toList) :=
  ((endsIn_of_isIdentifier h).append ['.']).append a

theorem not_mem_of_isIdentifier {s : String} (h : isIdentifier s = true) {c : Char}
    (hc : isWordChar c = false) : c ∉ s.toList := by
  intro hmem
  rw [List.all_eq_true.mp (isIdentifier_iff.mp h).2 c hmem] at hc
  exact Bool.noConfusion hc

theorem space_not_mem_of_isIdentifier {s : String} (h : isIdentifier s = true) :
    ' ' ∉ '.' :: s.toList :=
  List.not_mem_cons_of_ne_of_not_mem (by decide) (not_mem_of_isIdentifier h rfl)

/-! ## Entries -/

namespace Key

/-- What an entry adds to the words for what it is in. -/
def trail (k : Key) : List Char :=
  match k with
  | .str s => if isIdentifier s then '.' :: s.toList else '[' :: k.spelling.toList ++ [']']
  | _ => '[' :: k.spelling.toList ++ [']']

/-- An entry is added behind the words for what it is in. -/
theorem toList_extend_entry {described : String} (h : described ≠ "") (k : Key) :
    (Segment.extend described (.entry k)).toList = described.toList ++ k.trail := by
  have hbracket : (described ++ "[" ++ k.spelling ++ "]").toList =
      described.toList ++ ('[' :: k.spelling.toList ++ [']']) := by
    rw [String.toList_append, String.toList_append, String.toList_append, List.append_assoc,
      List.append_assoc]
    rfl
  have hsome : ¬ described.isEmpty = true := by rwa [String.isEmpty_iff]
  cases k with
  | str s =>
    rw [Segment.extend, if_neg hsome, trail]
    split
    · rw [String.toList_append, String.toList_append, List.append_assoc]
      rfl
    · exact hbracket
  | _ => exact (congrArg String.toList (if_neg hsome)).trans hbracket

/-- An entry is a word behind a point, or in brackets. -/
theorem trail_cases (k : Key) :
    (∃ s, k = .str s ∧ isIdentifier s = true ∧ k.trail = '.' :: s.toList) ∨
      k.trail = '[' :: k.spelling.toList ++ [']'] := by
  cases k with
  | str s =>
    by_cases hs : isIdentifier s = true
    · exact .inl ⟨s, rfl, hs, if_pos hs⟩
    · exact .inr (if_neg hs)
  | _ => exact .inr rfl

/-- A text that ends with an entry ends with no other, and nowhere else. -/
theorem trail_cancel {k l : Key} (hk : k.Normal) (hl : l.Normal) {a b : List Char}
    (h : a ++ k.trail = b ++ l.trail) : a = b ∧ k = l := by
  rcases k.trail_cases with ⟨s, rfl, hs, hktrail⟩ | hktrail <;>
    rcases l.trail_cases with ⟨t, rfl, ht, hltrail⟩ | hltrail <;>
    rw [hktrail, hltrail] at h
  · obtain ⟨hab, -, hst⟩ := append_cons_inj_of_all h (isIdentifier_iff.mp hs).2
      (isIdentifier_iff.mp ht).2 rfl rfl
    exact ⟨hab, congrArg str (String.toList_injective hst)⟩
  · rw [← List.append_assoc] at h
    exact absurd h ((endsIn_append_point hs a).ne_append_singleton rfl)
  · rw [← List.append_assoc] at h
    exact absurd h.symm ((endsIn_append_point ht b).ne_append_singleton rfl)
  · rw [← List.append_assoc, ← List.append_assoc] at h
    obtain ⟨hab, -, hkl⟩ := spelling_cancel hk hl rfl rfl (List.append_cancel_right h)
    exact ⟨hab, hkl⟩

/-- What ends with a letter, a digit or a quote, as a spelling does, ends with an entry only if
that is a word behind a point. -/
theorem exists_str_of_eq_append_trail {a b : List Char} {k : Key}
    (ha : EndsIn (fun c => c.isAlphanum || c == '\'') a) (h : a = b ++ k.trail) :
    ∃ s, k = .str s ∧ isIdentifier s = true ∧ a = b ++ '.' :: s.toList := by
  rcases k.trail_cases with ⟨s, hk, hs, htrail⟩ | htrail
  · exact ⟨s, hk, hs, by rw [h, htrail]⟩
  · rw [htrail, ← List.append_assoc] at h
    exact absurd h (ha.ne_append_singleton rfl)

end Key

namespace Path

/-- What entries add to the words for what they are in. -/
def trails (keys : List Key) : List Char := keys.flatMap Key.trail

theorem trails_append_singleton (keys : List Key) (k : Key) :
    trails (keys ++ [k]) = trails keys ++ k.trail := by
  rw [trails, List.flatMap_append, List.flatMap_singleton]
  rfl

/-- Entries that end one text are the same as far back as they go. -/
theorem trails_cancel {keys keys' : List Key} (hkeys : ∀ k ∈ keys, k.Normal)
    (hkeys' : ∀ k ∈ keys', k.Normal) {a b : List Char} (h : a ++ trails keys = b ++ trails keys') :
    (∃ more, keys' = more ++ keys ∧ a = b ++ trails more) ∨
      ∃ more, keys = more ++ keys' ∧ b = a ++ trails more := by
  induction keys using List.reverseRecOn generalizing keys' with
  | nil =>
    refine .inl ⟨keys', (List.append_nil keys').symm, ?_⟩
    rw [← h]
    exact (List.append_nil a).symm
  | append_singleton keys k ih =>
    cases keys' using List.reverseRecOn with
    | nil =>
      refine .inr ⟨keys ++ [k], (List.append_nil _).symm, ?_⟩
      rw [h]
      exact (List.append_nil b).symm
    | append_singleton keys' l =>
      rw [trails_append_singleton, trails_append_singleton, ← List.append_assoc,
        ← List.append_assoc] at h
      obtain ⟨hrest, rfl⟩ := Key.trail_cancel (hkeys k List.mem_concat_self)
        (hkeys' l List.mem_concat_self) h
      have hmore := ih (fun p hp => hkeys p (List.mem_append_left _ hp))
        (fun p hp => hkeys' p (List.mem_append_left _ hp)) hrest
      rcases hmore with ⟨more, rfl, ha⟩ | ⟨more, rfl, hb⟩
      · exact .inl ⟨more, List.append_assoc more keys [k], ha⟩
      · exact .inr ⟨more, List.append_assoc more keys' [k], hb⟩

/-! ## Words for a path -/

/-- What stands before the words for an entry when its key is meant, and when it is not. -/
def lead (last : Option Key) : List Char :=
  last.elim [] fun k => "key".toList ++ ' ' :: k.spelling.toList ++ " of ".toList

theorem ne_empty_of_toList_eq {s : String} {a b : List Char} (h : s.toList = a ++ b)
    (ha : a ≠ []) : s ≠ "" := by
  rintro rfl
  exact ha (List.append_eq_nil_iff.mp h.symm).1

/-- So are entries of entries, one behind the other. -/
theorem toList_foldl_entries {described : String} (h : described ≠ "") (keys : List Key) :
    ((keys.map Segment.entry).foldl Segment.extend described).toList =
      described.toList ++ trails keys := by
  induction keys generalizing described with
  | nil => exact (List.append_nil _).symm
  | cons k keys ih =>
    have hk := Key.toList_extend_entry h k
    have hne := ne_empty_of_toList_eq hk (String.toList_eq_nil_iff.not.mpr h)
    rw [List.map_cons, List.foldl_cons, ih hne, hk, List.append_assoc]
    rfl

theorem toList_foldl_through {described : String} (h : described ≠ "") (keys : List Key)
    (last : Option Key) :
    ((through keys last).foldl Segment.extend described).toList =
      lead last ++ described.toList ++ trails keys := by
  have hentries := toList_foldl_entries h keys
  have hne := ne_empty_of_toList_eq hentries (String.toList_eq_nil_iff.not.mpr h)
  rw [through, List.foldl_append]
  cases last with
  | none => exact hentries
  | some k =>
    rw [Option.toList_some, List.map_singleton, List.foldl_cons, List.foldl_nil, Segment.extend,
      String.isEmpty_eq_false_iff.mpr hne, if_neg Bool.false_ne_true, String.toList_append,
      String.toList_append, String.toList_append, hentries, List.append_assoc (lead _)]
    rfl

/-- The words for a path from a named root are what leads, the name and what trails. -/
theorem toList_describe_root {name : String} (h : name ≠ "") (keys : List Key)
    (last : Option Key) : (describe (.root name :: through keys last)).toList =
      lead last ++ name.toList ++ trails keys :=
  toList_foldl_through h keys last

/-- The words that a path with entries and no root starts with, up to the key of the first. -/
def bareLead (last : Option Key) : List Char := lead last ++ "table entry".toList

/-- Without a root, the first entry stands in for the name. -/
theorem toList_describe_entries (k : Key) (keys : List Key) (last : Option Key) :
    (describe (through (k :: keys) last)).toList =
      bareLead last ++ ' ' :: k.spelling.toList ++ trails keys := by
  have hfirst : ("table entry " ++ k.spelling).toList =
      "table entry".toList ++ ' ' :: k.spelling.toList := by
    rw [String.toList_append, List.append_cons]
    rfl
  have hne := ne_empty_of_toList_eq hfirst (by decide)
  exact (toList_foldl_through hne keys last).trans
    (by rw [hfirst, ← List.append_assoc (lead last)]; rfl)

/-- Without either, only the key is left. -/
theorem toList_describe_key (k : Key) :
    (describe (through [] (some k))).toList = "key".toList ++ ' ' :: k.spelling.toList :=
  String.toList_append

/-- Paths have the same location, or none, if there are the same words for both. -/
theorem location?_eq_iff {p q : Path} : location? p = location? q ↔ describe p = describe q := by
  constructor
  · intro h
    simp only [location?] at h
    split at h <;> split at h
    · next hp hq => rw [String.isEmpty_iff.mp hp, String.isEmpty_iff.mp hq]
    · exact nomatch h
    · exact nomatch h
    · exact Option.some.inj h
  · intro h
    rw [location?, h]
    rfl

/-- What leads tells which key is meant, if any. -/
theorem lead_injective {last last' : Option Key} (h : ∀ k ∈ last.toList, k.Normal)
    (h' : ∀ k ∈ last'.toList, k.Normal) (heq : lead last = lead last') : last = last' := by
  cases last with
  | none =>
    cases last' with
    | none => rfl
    | some l => exact nomatch heq
  | some k =>
    cases last' with
    | none => exact nomatch heq
    | some l =>
      obtain ⟨-, -, rfl⟩ := Key.spelling_cancel (h k List.mem_cons_self)
        (h' l List.mem_cons_self) rfl rfl (List.append_cancel_right heq)
      rfl

/-! ## Under a root -/

/-- A name is the last word of what it ends, as if there were a space before all. -/
theorem exists_cons_lead_append (last : Option Key) (name : List Char) :
    ∃ before, ' ' :: (lead last ++ name) = before ++ ' ' :: name := by
  cases last with
  | none => exact ⟨[], rfl⟩
  | some k =>
    refine ⟨' ' :: ("key".toList ++ ' ' :: k.spelling.toList ++ " of".toList), ?_⟩
    rw [List.append_cons _ ' ' name, List.cons_append, List.cons_append,
      List.append_assoc _ _ [' ']]
    rfl

/-- A name is not to be taken for an entry, whatever stands before it. -/
theorem lead_append_name_ne {name : String} (hname : isIdentifier name = true)
    (last : Option Key) (a : List Char) (k : Key) : lead last ++ name.toList ≠ a ++ k.trail := by
  intro h
  rcases k.trail_cases with ⟨s, -, hs, htrail⟩ | htrail <;> rw [htrail] at h
  · obtain ⟨before, hbefore⟩ := exists_cons_lead_append last name.toList
    have hlast : before ++ ' ' :: name.toList = (' ' :: a) ++ '.' :: s.toList := by
      rw [← hbefore, h, List.cons_append]
    have hspace := (append_cons_inj_of_all hlast (isIdentifier_iff.mp hname).2
      (isIdentifier_iff.mp hs).2 rfl rfl).2.1
    exact absurd hspace (by decide)
  · have hends : EndsIn isWordChar (lead last ++ name.toList) :=
      (endsIn_of_isIdentifier hname).append _
    rw [← List.append_assoc] at h
    exact hends.ne_append_singleton rfl h

/-- A name is told from what stands before it. -/
theorem lead_append_name_cancel {name name' : String} (hname : isIdentifier name = true)
    (hname' : isIdentifier name' = true) {last last' : Option Key}
    (h : lead last ++ name.toList = lead last' ++ name'.toList) :
    lead last = lead last' ∧ name = name' := by
  obtain ⟨before, hbefore⟩ := exists_cons_lead_append last name.toList
  obtain ⟨before', hbefore'⟩ := exists_cons_lead_append last' name'.toList
  have hlast : before ++ ' ' :: name.toList = before' ++ ' ' :: name'.toList := by
    rw [← hbefore, h, hbefore']
  have heq := (append_cons_inj_of_all hlast (isIdentifier_iff.mp hname).2
    (isIdentifier_iff.mp hname').2 rfl rfl).2.2
  rw [heq] at h
  exact ⟨List.append_cancel_right h, String.toList_injective heq⟩

/-- Behind a name no more entries can be read than there are. -/
theorem eq_nil_of_lead_append_name {name : String} (hname : isIdentifier name = true)
    {last : Option Key} {a : List Char} {more : List Key}
    (h : lead last ++ name.toList = a ++ trails more) : more = [] := by
  rcases List.eq_nil_or_concat more with hnil | ⟨more, k, rfl⟩
  · exact hnil
  · rw [List.concat_eq_append, trails_append_singleton, ← List.append_assoc] at h
    exact absurd h (lead_append_name_ne hname last _ k)

/-- Under roots that are named by identifiers, paths with the same location are the same. -/
theorem location?_root_eq_iff {name name' : String} (hname : isIdentifier name = true)
    (hname' : isIdentifier name' = true) {keys keys' : List Key} {last last' : Option Key}
    (hpath : ∀ k ∈ keys ++ last.toList, k.Normal)
    (hpath' : ∀ k ∈ keys' ++ last'.toList, k.Normal) :
    location? (.root name :: through keys last) = location? (.root name' :: through keys' last') ↔
      name = name' ∧ keys = keys' ∧ last = last' := by
  obtain ⟨hkeys, hlast⟩ := List.forall_mem_append.mp hpath
  obtain ⟨hkeys', hlast'⟩ := List.forall_mem_append.mp hpath'
  have hne {s : String} (hs : isIdentifier s = true) : s ≠ "" := by
    rintro rfl
    exact absurd hs (by decide)
  constructor
  · intro h
    have hwords : lead last ++ name.toList ++ trails keys =
        lead last' ++ name'.toList ++ trails keys' := by
      rw [← toList_describe_root (hne hname), ← toList_describe_root (hne hname'),
        location?_eq_iff.mp h]
    have hmore : keys = keys' ∧ lead last ++ name.toList = lead last' ++ name'.toList := by
      rcases trails_cancel hkeys hkeys' hwords with ⟨more, rfl, heq⟩ | ⟨more, rfl, heq⟩
      · obtain rfl := eq_nil_of_lead_append_name hname heq
        exact ⟨rfl, heq.trans (List.append_nil _)⟩
      · obtain rfl := eq_nil_of_lead_append_name hname' heq
        exact ⟨rfl, (heq.trans (List.append_nil _)).symm⟩
    obtain ⟨hlead, hnames⟩ := lead_append_name_cancel hname hname' hmore.2
    exact ⟨hnames, hmore.1, lead_injective hlast hlast' hlead⟩
  · rintro ⟨rfl, rfl, rfl⟩
    rfl

/-- The number `2.5` as a key. -/
def twoAndAHalf : Key := .float (.ofBits 0x4004000000000000)

theorem normal_twoAndAHalf : twoAndAHalf.Normal := by
  have hbroken : (Binary64.ofBits 0x4004000000000000).toInt? = none := by decide +kernel
  have hnumber : Key.number (.ofBits 0x4004000000000000) = twoAndAHalf := by
    rw [Key.number, hbroken]
    rfl
  exact hnumber ▸ Key.normal_number _

/-- Under a name, what is at `2.5` is told from what is at `5` of the entry at `2`, also behind
an entry with a backslash and for a key with a quote. -/
theorem location?_root_eq_iff_list :
    isIdentifier "list" = true ∧
      (∀ k ∈ [Key.str "a\\", .int 2, .str "5", .str "it's"], k.Normal) ∧
      (∀ k ∈ [Key.str "a\\", twoAndAHalf, .str "it's"], k.Normal) ∧
      location? (.root "list" :: through [.str "a\\", .int 2, .str "5"] (some (.str "it's"))) ≠
        location? (.root "list" :: through [.str "a\\", twoAndAHalf] (some (.str "it's"))) := by
  have hname : isIdentifier "list" = true := by decide
  have hword : ∀ k ∈ [Key.str "a\\", .int 2, .str "5", .str "it's"], k.Normal := by
    simp [Key.normal_int, Key.normal_str]
  have hnumber : ∀ k ∈ [Key.str "a\\", twoAndAHalf, .str "it's"], k.Normal := by
    simp [normal_twoAndAHalf, Key.normal_str]
  refine ⟨hname, hword, hnumber, ?_⟩
  intro heq
  have hkeys := ((location?_root_eq_iff hname hname hword hnumber).mp heq).2.1
  exact nomatch hkeys

/-! ## Without a root -/

/-- Keys that start with an integer and a word, and keys that start instead with the number that
is spelled as these two are with a point between them. -/
inductive LooksLike : List Key → List Key → Prop where
  | number {i : Int} {s : String} {x : Binary64} (rest : List Key)
      (identifier : isIdentifier s = true) (text_eq : x.text = (Key.int i).text ++ "." ++ s) :
      LooksLike (.int i :: .str s :: rest) (.float x :: rest)

/-- What reads as an integer behind a space is the spelling of an integer, with no entries
behind it. -/
theorem exists_int_of_spelling_eq {l : Key} (hl : l.Normal) {a b digits : List Char}
    {more : List Key} (hall : digits.all isIntegerChar = true) (hends : EndsIn Char.isDigit digits)
    (h : a ++ ' ' :: digits = b ++ ' ' :: l.spelling.toList ++ trails more) :
    a = b ∧ more = [] ∧ ∃ i, l = .int i ∧ (Key.int i).text.toList = digits := by
  have hdigit {p : Char → Bool} (hp : ∀ c, c.isDigit = true → p c = true) :
      EndsIn p (a ++ ' ' :: digits) :=
    ((hends.imp hp).append [' ']).append a
  rcases List.eq_nil_or_concat more with rfl | ⟨more, m, rfl⟩
  · rw [trails, List.flatMap_nil, List.append_nil] at h
    rcases l.exists_str_or_plain with ⟨s, rfl⟩ | hplain
    · rw [Key.toList_spelling_str, ← List.cons_append, ← List.append_assoc] at h
      exact absurd h ((hdigit fun _ hc => hc).ne_append_singleton rfl)
    · rw [hplain.spelling_eq] at h
      obtain ⟨hab, -, htext⟩ := append_cons_inj_of_all h
        (all_isNumberChar_of_all_isIntegerChar hall) (Key.all_isNumberChar_text hplain) rfl rfl
      rw [htext] at hall ⊢
      obtain ⟨i, rfl⟩ := Key.exists_int_of_all_isIntegerChar hl hplain hall
      exact ⟨hab, rfl, i, rfl, rfl⟩
  · rw [List.concat_eq_append, trails_append_singleton, ← List.append_assoc] at h
    obtain ⟨s, -, hs, heq⟩ := Key.exists_str_of_eq_append_trail
      (hdigit fun c hc => by rw [Char.isAlphanum, hc, Bool.or_true, Bool.true_or]) h
    -- a point before the word would be among the digits
    obtain ⟨before, rfl, -⟩ := exists_append_of_not_mem heq (space_not_mem_of_isIdentifier hs)
    exact absurd (List.all_eq_true.mp hall '.' (List.mem_append_right _ List.mem_cons_self))
      (by decide)

/-- The key that ends one text may end the other before entries; these then are one word, and
the key is the number that they make with the integer before them. -/
theorem spelling_eq_trails_cases {k l : Key} (hk : k.Normal) (hl : l.Normal) {a b : List Char}
    {more : List Key} (h : a ++ ' ' :: k.spelling.toList =
      b ++ ' ' :: l.spelling.toList ++ trails more) (rest : List Key) :
    a = b ∧ (k :: rest = l :: (more ++ rest) ∨ LooksLike (l :: (more ++ rest)) (k :: rest)) := by
  rcases List.eq_nil_or_concat more with rfl | ⟨more, m, rfl⟩
  · obtain ⟨hab, -, rfl⟩ := Key.spelling_cancel hk hl rfl rfl (h.trans (List.append_nil _))
    exact ⟨hab, .inl rfl⟩
  rw [List.concat_eq_append, trails_append_singleton, ← List.append_assoc] at h
  obtain ⟨s, rfl, hs, heq⟩ := Key.exists_str_of_eq_append_trail
    ((k.endsIn_spelling.append [' ']).append a) h
  -- the word is behind the space, so the key ends with it
  obtain ⟨before, hspelling, hbefore⟩ :=
    exists_append_of_not_mem heq (space_not_mem_of_isIdentifier hs)
  rcases k.exists_str_or_plain with ⟨t, rfl⟩ | hplain
  · rw [Key.toList_spelling_str] at hspelling
    exact absurd hspelling.symm ((endsIn_append_point hs before).ne_append_singleton rfl)
  · rw [hplain.spelling_eq] at hspelling
    obtain ⟨x, negative, whole, rfl, hwhole, rfl⟩ :=
      Key.exists_float_of_text_eq hk hplain hspelling (not_mem_of_isIdentifier hs rfl)
    have hall := all_isIntegerChar_of_all_isDigit (isNumeral_iff.mp hwhole).2
    obtain ⟨hab, rfl, i, rfl, htext⟩ := exists_int_of_spelling_eq hl
      (all_isIntegerChar_withSign hall negative)
      (endsIn_withSign (endsIn_of_isNumeral hwhole) negative) hbefore.symm
    refine ⟨hab, .inr (.number rest hs (String.toList_injective ?_))⟩
    rw [String.toList_append, String.toList_append, htext, List.append_assoc]
    exact hspelling

/-- Texts that end with the spelling of a key and entries behind it start in the same way, and
the keys are the same, or look like it. -/
theorem spelling_trails_cancel {k l : Key} {keys keys' : List Key}
    (hkeys : ∀ p ∈ k :: keys, p.Normal) (hkeys' : ∀ p ∈ l :: keys', p.Normal) {a b : List Char}
    (h : a ++ ' ' :: k.spelling.toList ++ trails keys =
      b ++ ' ' :: l.spelling.toList ++ trails keys') :
    a = b ∧ (k :: keys = l :: keys' ∨ LooksLike (k :: keys) (l :: keys') ∨
      LooksLike (l :: keys') (k :: keys)) := by
  obtain ⟨hk, hrest⟩ := List.forall_mem_cons.mp hkeys
  obtain ⟨hl, hrest'⟩ := List.forall_mem_cons.mp hkeys'
  rcases trails_cancel hrest hrest' h with ⟨more, rfl, heq⟩ | ⟨more, rfl, heq⟩
  · obtain ⟨hab, hsame | hlooks⟩ := spelling_eq_trails_cases hk hl heq keys
    · exact ⟨hab, .inl hsame⟩
    · exact ⟨hab, .inr (.inr hlooks)⟩
  · obtain ⟨hab, hsame | hlooks⟩ := spelling_eq_trails_cases hl hk heq keys'
    · exact ⟨hab.symm, .inl hsame.symm⟩
    · exact ⟨hab.symm, .inr (.inl hlooks)⟩

/-- Without a root, keys that look like others are described as the others are. -/
theorem LooksLike.describe_eq {keys keys' : List Key} (h : LooksLike keys keys')
    (last : Option Key) : describe (through keys last) = describe (through keys' last) := by
  obtain @⟨i, s, x, rest, hs, htext⟩ := h
  have htrail : trails (.str s :: rest) = '.' :: s.toList ++ trails rest :=
    congrArg (· ++ trails rest) (if_pos hs)
  have hnumber : (Key.float x).spelling.toList =
      (Key.int i).spelling.toList ++ '.' :: s.toList := by
    refine (congrArg String.toList htext).trans ?_
    rw [String.toList_append, String.toList_append, List.append_assoc]
    rfl
  apply String.toList_injective
  rw [toList_describe_entries, toList_describe_entries, htrail, hnumber, ← List.append_assoc,
    List.append_assoc (bareLead last), List.cons_append]

/-- The key of an entry and what is in an entry are not described alike. -/
theorem describe_nil_ne {l : Key} {keys : List Key} {last last' : Option Key}
    (hlast : ∀ k ∈ last.toList, k.Normal) (hkeys : ∀ k ∈ l :: keys, k.Normal) :
    describe (through [] last) ≠ describe (through (l :: keys) last') := by
  intro h
  have hwords := congrArg String.toList h
  rw [toList_describe_entries] at hwords
  cases last with
  | none =>
    rw [List.append_assoc] at hwords
    exact List.cons_ne_nil _ _ (List.append_eq_nil_iff.mp hwords.symm).2
  | some k =>
    rw [toList_describe_key, ← List.append_nil (_ ++ _)] at hwords
    have hlead := (spelling_trails_cancel hlast hkeys hwords).1
    have hlength := congrArg List.length hlead
    have hkey : "key".toList.length = 3 := rfl
    have htable : "table entry".toList.length = 11 := rfl
    rw [bareLead, List.length_append, hkey, htable] at hlength
    omega

/-- Keys of entries are described in different ways. -/
theorem describe_nil_injective {last last' : Option Key} (hlast : ∀ k ∈ last.toList, k.Normal)
    (hlast' : ∀ k ∈ last'.toList, k.Normal)
    (h : describe (through [] last) = describe (through [] last')) : last = last' := by
  have hwords := congrArg String.toList h
  cases last with
  | none =>
    cases last' with
    | none => rfl
    | some l =>
      rw [toList_describe_key] at hwords
      exact nomatch hwords
  | some k =>
    rw [toList_describe_key] at hwords
    cases last' with
    | none => exact nomatch hwords
    | some l =>
      rw [toList_describe_key] at hwords
      obtain ⟨-, -, rfl⟩ := Key.spelling_cancel (hlast k List.mem_cons_self)
        (hlast' l List.mem_cons_self) rfl rfl hwords
      rfl

/-- Without a root, paths with the same location are the same, or the keys of one look like those
of the other. -/
theorem location?_through_eq_iff {keys keys' : List Key} {last last' : Option Key}
    (hpath : ∀ k ∈ keys ++ last.toList, k.Normal)
    (hpath' : ∀ k ∈ keys' ++ last'.toList, k.Normal) :
    location? (through keys last) = location? (through keys' last') ↔
      last = last' ∧ (keys = keys' ∨ LooksLike keys keys' ∨ LooksLike keys' keys) := by
  obtain ⟨hkeys, hlast⟩ := List.forall_mem_append.mp hpath
  obtain ⟨hkeys', hlast'⟩ := List.forall_mem_append.mp hpath'
  rw [location?_eq_iff]
  constructor
  · intro h
    cases keys with
    | nil =>
      cases keys' with
      | nil => exact ⟨describe_nil_injective hlast hlast' h, .inl rfl⟩
      | cons l keys' => exact absurd h (describe_nil_ne hlast hkeys')
    | cons k keys =>
      cases keys' with
      | nil => exact absurd h.symm (describe_nil_ne hlast' hkeys)
      | cons l keys' =>
        have hwords := congrArg String.toList h
        rw [toList_describe_entries, toList_describe_entries] at hwords
        obtain ⟨hlead, hsame⟩ := spelling_trails_cancel hkeys hkeys' hwords
        exact ⟨lead_injective hlast hlast' (List.append_cancel_right hlead), hsame⟩
  · rintro ⟨rfl, rfl | hlooks | hlooks⟩
    · rfl
    · exact hlooks.describe_eq last
    · exact (hlooks.describe_eq last).symm

/-- Without a root, different paths can have the same location: `table entry 2.5` is the entry
at `2.5`, and it is the entry at `5` of the entry at `2`. -/
theorem location?_through_not_injective :
    ¬ ∀ (keys keys' : List Key) (last last' : Option Key),
      (∀ k ∈ keys ++ last.toList, k.Normal) → (∀ k ∈ keys' ++ last'.toList, k.Normal) →
        location? (through keys last) = location? (through keys' last') →
          keys = keys' ∧ last = last' := by
  intro h
  have hword : ∀ k ∈ [Key.int 2, .str "5"], k.Normal := by
    simp [Key.normal_int, Key.normal_str]
  have hnumber : ∀ k ∈ [twoAndAHalf], k.Normal := List.forall_mem_singleton.mpr normal_twoAndAHalf
  have heq : location? (through [.int 2, .str "5"] none) =
      location? (through [twoAndAHalf] none) := by decide +kernel
  exact nomatch (h _ _ none none hword hnumber heq).1

/-- What is in these entries has the same location too. -/
theorem location?_through_eq_iff_twoAndAHalf :
    (∀ k ∈ [Key.int 2, .str "5", .str "id"], k.Normal) ∧
      (∀ k ∈ [twoAndAHalf, .str "id"], k.Normal) ∧
      location? (through [.int 2, .str "5", .str "id"] none) =
        location? (through [twoAndAHalf, .str "id"] none) := by
  have hword : ∀ k ∈ [Key.int 2, .str "5", .str "id"], k.Normal := by
    simp [Key.normal_int, Key.normal_str]
  have hnumber : ∀ k ∈ [twoAndAHalf, .str "id"], k.Normal := by
    simp [normal_twoAndAHalf, Key.normal_str]
  have hlooks : LooksLike [.int 2, .str "5", .str "id"] [twoAndAHalf, .str "id"] :=
    .number _ (by decide) (by decide +kernel)
  exact ⟨hword, hnumber,
    (location?_through_eq_iff hword hnumber).mpr ⟨rfl, .inr (.inl hlooks)⟩⟩

end Path

end Conformance

import Mathlib.Data.List.DropRight
import MiniKV.Lib.Utf8

/- Cutting a byte string into fields at runs of white space, and lower case. Both work
   on runes, so a byte inside a longer sequence is never taken for a separator. -/
namespace Fields
open Utf8

def isSpace (code : Nat) : Bool :=
  (decide (0x09 ≤ code) && decide (code ≤ 0x0D)) || code == 0x20 || code == 0x85 || code == 0xA0 ||
    code == 0x1680 || (decide (0x2000 ≤ code) && decide (code ≤ 0x200A)) || code == 0x2028 ||
    code == 0x2029 || code == 0x202F || code == 0x205F || code == 0x3000

/-- The loop over the runes, with the field begun so far. -/
def cut : List Rune → List UInt8 → List (List UInt8)
  | [], begun => if begun = [] then [] else [begun]
  | rune :: rest, begun =>
    if isSpace rune.code then
      if begun = [] then cut rest [] else begun :: cut rest []
    else cut rest (begun ++ rune.raw)

def fields (bytes : List UInt8) : List (List UInt8) := cut (runes bytes) []

/-- What is left between the white space on both sides. -/
def trimSpace (bytes : List UInt8) : List UInt8 :=
  let space := fun rune : Rune => isSpace rune.code
  ((((runes bytes).dropWhile space).reverse.dropWhile space).reverse).flatMap Rune.raw

/-- Lower case of a code. Letters beyond ASCII have lower case too, but only these two
    have an ASCII letter for it. -/
def lowerCode (code : Nat) : Nat :=
  if 0x41 ≤ code ∧ code ≤ 0x5A then code + 0x20
  else if code = 0x130 then 0x69
  else if code = 0x212A then 0x6B
  else code

def lower (bytes : List UInt8) : List Nat := (runes bytes).map fun rune => lowerCode rune.code

def IsWord (bytes : List UInt8) : Prop :=
  bytes ≠ [] ∧ ∀ rune ∈ runes bytes, isSpace rune.code = false

instance (bytes : List UInt8) : Decidable (IsWord bytes) := inferInstanceAs (Decidable (_ ∧ _))

def unwords : List (List UInt8) → List UInt8
  | [] => []
  | [word] => word
  | word :: next :: more => word ++ 0x20 :: unwords (next :: more)

variable {rs rest : List Rune} {begun word : List UInt8} {words : List (List UInt8)}

theorem cut_word (plain : ∀ rune ∈ rs, isSpace rune.code = false) :
    cut (rs ++ rest) begun = cut rest (begun ++ rs.flatMap Rune.raw) := by
  induction rs generalizing begun with
  | nil => simp
  | cons rune rs ih =>
    have here := plain rune (by simp)
    rw [List.cons_append, cut, if_neg (by simp [here]),
      ih fun other mem => plain other (by simp [mem])]
    simp

theorem fields_word (isWord : IsWord word) : fields word = [word] := by
  obtain ⟨nonempty,plain⟩ := isWord
  have whole : cut (runes word ++ []) [] = cut [] ([] ++ (runes word).flatMap Rune.raw) :=
    cut_word plain
  rw [List.append_nil] at whole
  rw [fields, whole, List.nil_append, runes_raw, cut, if_neg nonempty]

theorem fields_append (isWord : IsWord word) (bytes : List UInt8) :
    fields (word ++ 0x20 :: bytes) = word :: fields bytes := by
  obtain ⟨nonempty,plain⟩ := isWord
  have blank : isSpace (0x20 : UInt8).toNat = true := by decide
  rw [fields, runes_append_ascii (by decide), cut_word plain, List.nil_append, runes_raw, cut, blank,
    if_pos rfl, if_neg nonempty]
  rfl

/-- Words written with single blanks are read back. -/
theorem fields_unwords (areWords : ∀ word ∈ words, IsWord word) :
    fields (unwords words) = words := by
  induction words with
  | nil => rfl
  | cons word rest ih =>
    have first := areWords word (by simp)
    cases rest with
    | nil => exact fields_word first
    | cons next more =>
      rw [unwords, fields_append first, ih fun other mem => areWords other (by simp [mem])]

/-- The fields hold every byte that is not part of a separator. -/
theorem cut_flatten (rs : List Rune) (begun : List UInt8) :
    (cut rs begun).flatten =
      begun ++ (rs.filter fun rune => !isSpace rune.code).flatMap Rune.raw := by
  induction rs generalizing begun with
  | nil =>
    unfold cut
    split
    · rename_i empty
      simp [empty]
    · simp
  | cons rune rs ih =>
    unfold cut
    cases space : isSpace rune.code with
    | true =>
      rw [if_pos rfl]
      split
      · rename_i empty
        simp [ih, space, empty]
      · simp [ih, space]
    | false =>
      rw [if_neg (by simp), ih]
      simp [space]

theorem kept_all {p : Rune → Bool} (nonempty : ∀ rune ∈ rs, rune.raw ≠ [])
    (same : ((rs.filter p).flatMap Rune.raw).length = (rs.flatMap Rune.raw).length) :
    ∀ rune ∈ rs, p rune = true := by
  have fewer : ∀ rs : List Rune,
      ((rs.filter p).flatMap Rune.raw).length ≤ (rs.flatMap Rune.raw).length := by
    intro rs
    induction rs with
    | nil => simp
    | cons rune rs ih =>
      rw [List.filter_cons]
      split <;> simp only [List.flatMap_cons, List.length_append] <;> omega
  induction rs with
  | nil => simp
  | cons first rs ih =>
    have bound := fewer rs
    have width := List.length_pos_iff.mpr (nonempty first (by simp))
    rw [List.filter_cons] at same
    cases kept : p first with
    | false =>
      rw [kept, if_neg (by simp), List.flatMap_cons, List.length_append] at same
      omega
    | true =>
      rw [kept, if_pos rfl, List.flatMap_cons, List.flatMap_cons, List.length_append,
        List.length_append] at same
      have rest := ih (fun rune mem => nonempty rune (by simp [mem])) (by omega)
      intro rune mem
      rcases List.mem_cons.mp mem with rfl | later
      · exact kept
      · exact rest rune later

theorem isWord_of_fields (whole : fields word = [word]) : IsWord word := by
  refine ⟨?_, ?_⟩
  · rintro rfl
    cases whole
  · have held := cut_flatten (runes word) []
    have joined : (cut (runes word) []).flatten = word := by
      rw [← fields, whole]
      simp
    rw [joined, List.nil_append] at held
    have all : ∀ rune ∈ runes word, (!isSpace rune.code) = true :=
      kept_all (fun rune mem => runes_nonempty mem) (by rw [← held, runes_raw])
    intro rune mem
    simpa using all rune mem

theorem cut_areWords {bytes : List UInt8} {before held : List Rune}
    (read : runes bytes = before ++ (held ++ rs))
    (plain : ∀ rune ∈ held, isSpace rune.code = false) :
    ∀ word ∈ cut rs (held.flatMap Rune.raw), IsWord word := by
  -- The field begun so far is made of the runes held, and those are read again from it.
  have begunWord (nonempty : held.flatMap Rune.raw ≠ []) : IsWord (held.flatMap Rune.raw) := by
    refine ⟨nonempty, ?_⟩
    rw [runes_part read]
    exact plain
  induction rs generalizing before held with
  | nil =>
    intro word mem
    unfold cut at mem
    split at mem
    · cases mem
    · rename_i nonempty
      obtain rfl := List.mem_singleton.mp mem
      exact begunWord nonempty
  | cons rune rs ih =>
    unfold cut
    cases space : isSpace rune.code with
    | true =>
      have later : runes bytes = (before ++ (held ++ [rune])) ++ ([] ++ rs) := by
        rw [read]
        simp
      have fresh := ih later (by simp) (fun nonempty => absurd rfl nonempty)
      rw [if_pos rfl]
      split
      · exact fresh
      · rename_i nonempty
        intro word mem
        rcases List.mem_cons.mp mem with rfl | behind
        · exact begunWord nonempty
        · exact fresh word behind
    | false =>
      have longer : runes bytes = before ++ ((held ++ [rune]) ++ rs) := by
        rw [read]
        simp
      have whole : ∀ r ∈ held ++ [rune], isSpace r.code = false := by
        intro r mem
        rcases List.mem_append.mp mem with own | last
        · exact plain r own
        · rw [List.mem_singleton.mp last]
          exact space
      have joined : held.flatMap Rune.raw ++ rune.raw = (held ++ [rune]).flatMap Rune.raw := by simp
      rw [if_neg (by simp), joined]
      refine ih longer whole ?_
      intro nonempty
      refine ⟨nonempty, ?_⟩
      rw [runes_part longer]
      exact whole

/-- Every field is a word: alone it has no white space either. -/
theorem fields_areWords (bytes : List UInt8) : ∀ word ∈ fields bytes, IsWord word := by
  have whole : runes bytes = [] ++ ([] ++ runes bytes) := rfl
  exact cut_areWords whole (by simp)

/-- The length of words with a separator behind each. -/
def spaced (words : List (List UInt8)) : Nat := (words.map fun word => word.length + 1).sum

theorem unwords_length (word : List UInt8) (rest : List (List UInt8)) :
    (unwords (word :: rest)).length + 1 = spaced (word :: rest) := by
  induction rest generalizing word with
  | nil => simp [unwords, spaced]
  | cons next more ih =>
    have later := ih next
    simp only [unwords, spaced, List.length_append, List.length_cons, List.map_cons,
      List.sum_cons] at later ⊢
    omega

theorem cut_spaced (nonempty : ∀ rune ∈ rs, rune.raw ≠ []) :
    spaced (cut rs begun) ≤ begun.length + (rs.flatMap Rune.raw).length + 1 := by
  induction rs generalizing begun with
  | nil =>
    unfold cut
    split <;> simp [spaced]
  | cons rune rs ih =>
    have width := List.length_pos_iff.mpr (nonempty rune (by simp))
    have rest : ∀ r ∈ rs, r.raw ≠ [] := fun r mem => nonempty r (by simp [mem])
    unfold cut
    rw [List.flatMap_cons, List.length_append]
    split
    · have later : spaced (cut rs []) ≤ 0 + (rs.flatMap Rune.raw).length + 1 := ih rest
      split
      · omega
      · simp only [spaced, List.map_cons, List.sum_cons] at later ⊢
        omega
    · have later : spaced (cut rs (begun ++ rune.raw)) ≤
          (begun ++ rune.raw).length + (rs.flatMap Rune.raw).length + 1 := ih rest
      rw [List.length_append] at later
      omega

/-- Words with single blanks between them are no longer than the text they were cut from. -/
theorem fields_spaced (bytes : List UInt8) : spaced (fields bytes) ≤ bytes.length + 1 := by
  have bound : spaced (fields bytes) ≤ 0 + ((runes bytes).flatMap Rune.raw).length + 1 :=
    cut_spaced fun _ mem => runes_nonempty mem
  rw [runes_raw, Nat.zero_add] at bound
  exact bound

section Trimming
variable {α : Type} {p : α → Bool} {as bs : List α} {x : α}

theorem dropWhile_around (stays : p x = false) :
    (as ++ x :: bs).dropWhile p = as.dropWhile p ++ x :: bs := by
  rw [List.dropWhile_append, List.dropWhile_cons_of_neg (by simp [stays])]
  split
  · rename_i empty
    rw [List.isEmpty_iff.mp empty, List.nil_append]
  · rfl

theorem rdropWhile_around (stays : p x = false) :
    (as ++ x :: bs).rdropWhile p = as ++ x :: bs.rdropWhile p := by
  have turned : (as ++ x :: bs).reverse = bs.reverse ++ x :: as.reverse := by simp
  rw [List.rdropWhile, turned, dropWhile_around stays, List.rdropWhile]
  simp

theorem rdropWhile_padded (all : ∀ b ∈ bs, p b = true) :
    (as ++ bs).rdropWhile p = as.rdropWhile p := by
  rw [List.rdropWhile, List.reverse_append,
    List.dropWhile_append_of_pos fun b mem => all b (List.mem_reverse.mp mem), List.rdropWhile]

/-- The two ends are trimmed independently. -/
theorem dropWhile_rdropWhile (as : List α) :
    (as.rdropWhile p).dropWhile p = (as.dropWhile p).rdropWhile p := by
  by_cases all : ∀ a ∈ as, p a = true
  · rw [List.rdropWhile_eq_nil_iff.mpr all, List.dropWhile_eq_nil_iff.mpr all]
    simp
  · simp only [not_forall] at all
    obtain ⟨x,mem,stays⟩ := all
    obtain ⟨before,after,rfl⟩ := List.append_of_mem mem
    have plain : p x = false := by simpa using stays
    rw [rdropWhile_around plain, dropWhile_around plain, dropWhile_around plain,
      rdropWhile_around plain]

end Trimming

def isBlank (rune : Rune) : Bool := isSpace rune.code

def trimLeft (bytes : List UInt8) : List UInt8 :=
  ((runes bytes).dropWhile isBlank).flatMap Rune.raw

def trimRight (bytes : List UInt8) : List UInt8 :=
  ((runes bytes).rdropWhile isBlank).flatMap Rune.raw

/-- White space only. -/
def Blank (bytes : List UInt8) : Prop := ∀ rune ∈ runes bytes, isBlank rune = true

instance (bytes : List UInt8) : Decidable (Blank bytes) :=
  inferInstanceAs (Decidable (∀ rune ∈ runes bytes, isBlank rune = true))

section Blanks
variable {c : UInt8} {xs ys bytes blank last : List UInt8}

theorem trimSpace_runes (bytes : List UInt8) : trimSpace bytes =
    (((runes bytes).dropWhile isBlank).rdropWhile isBlank).flatMap Rune.raw := rfl

theorem runes_trimLeft (bytes : List UInt8) :
    runes (trimLeft bytes) = (runes bytes).dropWhile isBlank :=
  runes_suffix (List.takeWhile_append_dropWhile (p := isBlank) (l := runes bytes)).symm

theorem runes_trimRight (bytes : List UInt8) :
    runes (trimRight bytes) = (runes bytes).rdropWhile isBlank := by
  obtain ⟨cut,whole⟩ := List.rdropWhile_prefix isBlank (l := runes bytes)
  exact runes_initial whole.symm

theorem trimSpace_trimLeft (bytes : List UInt8) : trimSpace (trimLeft bytes) = trimSpace bytes := by
  rw [trimSpace_runes, runes_trimLeft, List.dropWhile_idempotent, ← trimSpace_runes]

theorem trimSpace_trimRight (bytes : List UInt8) : trimSpace (trimRight bytes) = trimSpace bytes := by
  rw [trimSpace_runes, runes_trimRight, dropWhile_rdropWhile, List.rdropWhile_idempotent,
    ← trimSpace_runes]

/-- Around an ASCII byte that is no white space, each side is trimmed at its far end. -/
theorem trimSpace_around (small : c.toNat < 0x80) (plain : isSpace c.toNat = false) :
    trimSpace (xs ++ c :: ys) = trimLeft xs ++ c :: trimRight ys := by
  have stays : isBlank ⟨c.toNat,[c]⟩ = false := plain
  rw [trimSpace_runes, runes_append_ascii small, dropWhile_around stays, rdropWhile_around stays]
  simp [trimLeft, trimRight]

theorem mem_trimLeft (mem : c ∈ trimLeft bytes) : c ∈ bytes := by
  obtain ⟨rune,kept,held⟩ := List.mem_flatMap.mp mem
  rw [← runes_raw bytes]
  exact List.mem_flatMap.mpr ⟨rune,(List.dropWhile_sublist _).subset kept,held⟩

/-- What a text begins with is decided before its end is trimmed. -/
theorem head_trimLeft (bytes : List UInt8) : (trimLeft bytes).head? = (trimSpace bytes).head? := by
  rw [trimSpace_runes, trimLeft]
  cases left : (runes bytes).dropWhile isBlank with
  | nil => rfl
  | cons rune rest =>
    have stays : isBlank rune = false := by
      have first := List.head?_dropWhile_not isBlank (runes bytes)
      rw [left] at first
      exact first
    have mem : rune ∈ runes bytes :=
      (List.dropWhile_sublist isBlank).subset (by rw [left]; simp)
    obtain ⟨b,raw,own⟩ := List.exists_cons_of_ne_nil (runes_nonempty mem)
    have kept : ([] ++ rune :: rest).rdropWhile isBlank = [] ++ rune :: rest.rdropWhile isBlank :=
      rdropWhile_around stays
    rw [List.nil_append, List.nil_append] at kept
    rw [kept, List.flatMap_cons, List.flatMap_cons, own]
    rfl

theorem blank_valid (spaces : Blank bytes) : ∀ rune ∈ runes bytes, rune.code ≠ runeError := by
  intro rune mem same
  have space := spaces rune mem
  rw [isBlank, same] at space
  cases space

theorem runes_before_blank (spaces : Blank blank) (xs : List UInt8) :
    runes (xs ++ blank) = runes xs ++ runes blank := by
  cases blank with
  | nil => simp [runes, readRunes]
  | cons c rest =>
    have valid := blank_valid spaces
    rw [runes_cons] at valid
    have first := valid (firstRune c rest) (by simp)
    exact runes_append_start (firstRune_starts first) xs rest

/-- White space on either side is trimmed, whatever bytes it stands next to. -/
theorem trimSpace_padded (spaces : Blank blank) (ends : Blank last) (xs : List UInt8) :
    trimSpace (blank ++ (xs ++ last)) = trimSpace xs := by
  rw [trimSpace_runes, runes_append_valid (blank_valid spaces), runes_before_blank ends,
    List.dropWhile_append_of_pos spaces, ← dropWhile_rdropWhile, rdropWhile_padded ends,
    dropWhile_rdropWhile, ← trimSpace_runes]

end Blanks

theorem mem_trimSpace {b : UInt8} {bytes : List UInt8} (mem : b ∈ trimSpace bytes) :
    b ∈ bytes := by
  obtain ⟨rune,kept,held⟩ := List.mem_flatMap.mp mem
  have inner := (List.dropWhile_sublist _).subset (List.mem_reverse.mp kept)
  have outer := (List.dropWhile_sublist _).subset (List.mem_reverse.mp inner)
  rw [← runes_raw bytes]
  exact List.mem_flatMap.mpr ⟨rune,outer,held⟩

theorem mem_unwords {b : UInt8} (mem : b ∈ unwords words) :
    b = 0x20 ∨ ∃ word ∈ words, b ∈ word := by
  induction words with
  | nil => simp [unwords] at mem
  | cons word rest ih =>
    cases rest with
    | nil => exact Or.inr ⟨word,by simp,mem⟩
    | cons next more =>
      rw [unwords, List.mem_append, List.mem_cons] at mem
      rcases mem with own | rfl | later
      · exact Or.inr ⟨word,by simp,own⟩
      · exact Or.inl rfl
      · rcases ih later with blank | ⟨other,member,held⟩
        · exact Or.inl blank
        · exact Or.inr ⟨other,by simp [member],held⟩

theorem lower_ascii (small : ∀ b ∈ word, b.toNat < 0x80) :
    lower word = word.map fun b => lowerCode b.toNat := by
  rw [lower, runes_all_ascii small, List.map_map]
  rfl

end Fields

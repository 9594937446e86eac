import ConstExpr.Proofs.NameText

/-!
Names as they are written. A list of segments is read back from each way of writing it, and the kind
tells which way that was; whatever the text, what is read are segments. A separator in front of a
text makes all of it a fully qualified name, and so does naming the text fully qualified, except
that a text that begins as a relative name does loses its first word.
-/

namespace ConstExpr

theorem pieces_eq_splitOn (c : Char) (cs : List Char) : pieces c cs = cs.splitOn c := by
  induction cs with
  | nil => rw [pieces, List.splitOn_nil]
  | cons x rest ih =>
    rw [pieces, ih, List.splitOn_cons_eq_if_modifyHead]
    by_cases same : x = c
    · simp [same]
    · have some := List.splitOn_ne_nil c rest
      cases split : rest.splitOn c with
      | nil => exact absurd split some
      | cons first others => simp [same]

theorem not_mem_of_mem_splitOn {c : Char} {cs piece : List Char} (member : piece ∈ cs.splitOn c) :
    c ∉ piece := by
  induction cs generalizing piece with
  | nil =>
    rw [List.splitOn_nil, List.mem_singleton] at member
    simp [member]
  | cons x rest ih =>
    rw [List.splitOn_cons_eq_if_modifyHead] at member
    split at member
    next =>
      rcases List.mem_cons.mp member with rfl | later
      · exact List.not_mem_nil
      · exact ih later
    next other =>
      cases split : rest.splitOn c with
      | nil => exact absurd split (List.splitOn_ne_nil c rest)
      | cons first others =>
        rw [split, List.modifyHead_cons] at member
        rcases List.mem_cons.mp member with rfl | later
        · have apart : c ≠ x := fun same => other (by simp [same])
          have front : c ∉ first := ih (by simp [split])
          simp [apart, front]
        · exact ih (by simp [split, later])

namespace Name

/-- A segment of a name: not empty and without a separator in it. -/
def Segment (s : String) : Prop := s ≠ "" ∧ '\\' ∉ s.toList

instance (s : String) : Decidable (Segment s) :=
  inferInstanceAs (Decidable (s ≠ "" ∧ '\\' ∉ s.toList))

section Segments

theorem segments_eq (cs : List Char) :
    segments cs = ((cs.splitOn '\\').filter (!·.isEmpty)).map String.ofList := by
  rw [segments, pieces_eq_splitOn]

theorem segments_append (before after : List Char) :
    segments (before ++ '\\' :: after) = segments before ++ segments after := by
  simp only [segments_eq, List.splitOn_append_cons_self, List.filter_append, List.map_append]

theorem segments_cons_separator (cs : List Char) : segments ('\\' :: cs) = segments cs :=
  segments_append [] cs

theorem segments_dropWhile (cs : List Char) :
    segments (cs.dropWhile (· == '\\')) = segments cs := by
  induction cs with
  | nil => rfl
  | cons c rest ih =>
    by_cases separator : c = '\\'
    · rw [separator, List.dropWhile_cons_of_pos (by rfl), ih, segments_cons_separator]
    · rw [List.dropWhile_cons_of_neg (by simpa using separator)]

theorem segments_of_segment {s : String} (segment : Segment s) : segments s.toList = [s] := by
  have filled : s.toList ≠ [] := fun none => segment.1 (String.toList_inj.mp none)
  rw [segments_eq, List.splitOn_eq_singleton segment.2]
  simp [filled]

theorem segments_word {word : String} (segment : Segment word) (rest : String) :
    segments (word ++ "\\" ++ rest).toList = word :: segments rest.toList := by
  have whole : (word ++ "\\" ++ rest).toList = word.toList ++ '\\' :: rest.toList := by simp
  rw [whole, segments_append, segments_of_segment segment, List.singleton_append]

theorem head?_append {s : String} (segment : Segment s) (rest : String) :
    (s ++ rest).toList.head? ≠ some '\\' := by
  cases chars : s.toList with
  | nil => exact absurd (String.toList_inj.mp chars) segment.1
  | cons c tail =>
    intro first
    have separator : c = '\\' := by simpa [chars] using first
    exact segment.2 (by simp [chars, separator])

theorem segments_intercalate {ps : List String} (all : ∀ p ∈ ps, Segment p) :
    segments (String.intercalate "\\" ps).toList = ps := by
  induction ps with
  | nil => rfl
  | cons p rest ih =>
    have first : Segment p := all p List.mem_cons_self
    have others := ih fun q member => all q (List.mem_cons_of_mem p member)
    by_cases last : rest = []
    · rw [last, String.intercalate_singleton, segments_of_segment first]
    · rw [String.intercalate_cons_of_ne_nil last, segments_word first, others]

theorem segment_of_mem_segments {cs : List Char} {s : String} (member : s ∈ segments cs) :
    Segment s := by
  rw [segments_eq] at member
  obtain ⟨piece, found, rfl⟩ := List.mem_map.mp member
  obtain ⟨among, filled⟩ := List.mem_filter.mp found
  constructor
  · intro none
    have empty : piece = [] := by
      rw [← String.toList_inj, String.toList_ofList] at none
      exact none
    simp [empty] at filled
  · rw [String.toList_ofList]
    exact not_mem_of_mem_splitOn among

end Segments

section Parse

variable {text word : String}

theorem map_toLower_of_spelled (spelled : foldCase word = "namespace") :
    word.toList.map Char.toLower = "namespace".toList := by
  rw [← toList_foldCase, spelled]

theorem segment_of_spelled (spelled : foldCase word = "namespace") : Segment word := by
  have letters := map_toLower_of_spelled spelled
  constructor
  · rintro rfl
    cases letters
  · intro inside
    have stays : '\\' ∈ word.toList.map Char.toLower := List.mem_map.mpr ⟨'\\', inside, rfl⟩
    rw [letters] at stays
    exact absurd stays (by decide)

/-- The text begins with the word `namespace`, in some case, and a separator. -/
def OpensRelative (text : String) : Prop :=
  ∃ word rest, foldCase word = "namespace" ∧ text = word ++ "\\" ++ rest

theorem take_mark (spelled : foldCase word = "namespace") (rest : String) :
    (word ++ "\\" ++ rest).toList.take relativeMark.length = word.toList ++ ['\\'] ∧
      (word ++ "\\" ++ rest).toList.drop relativeMark.length = rest.toList := by
  have long : (word.toList ++ ['\\']).length = relativeMark.length := by
    have letters := congrArg List.length (map_toLower_of_spelled spelled)
    rw [List.length_map] at letters
    rw [List.length_append, letters]
    rfl
  have whole : (word ++ "\\" ++ rest).toList = (word.toList ++ ['\\']) ++ rest.toList := by simp
  rw [whole]
  exact ⟨List.take_left' long, List.drop_left' long⟩

theorem isRelative_iff : isRelative text.toList = true ↔ OpensRelative text := by
  have mark : relativeMark = "namespace".toList ++ ['\\'] := rfl
  rw [isRelative, beq_iff_eq]
  constructor
  · intro same
    have whole := List.take_append_drop relativeMark.length text.toList
    generalize text.toList.take relativeMark.length = taken at same whole
    generalize text.toList.drop relativeMark.length = rest at whole
    rw [mark] at same
    obtain ⟨front, back, rfl, spelled, closed⟩ := List.map_eq_append_iff.mp same
    obtain ⟨c, rfl, separator⟩ := List.map_eq_singleton_iff.mp closed
    rw [toLower_eq_separator_iff] at separator
    refine ⟨String.ofList front, String.ofList rest, ?_, ?_⟩
    · rw [← String.toList_inj, toList_foldCase, String.toList_ofList, spelled]
    · rw [← String.toList_inj, ← whole, separator]
      simp
  · rintro ⟨word, rest, spelled, rfl⟩
    rw [(take_mark spelled rest).1, List.map_append, map_toLower_of_spelled spelled]
    rfl

theorem parse_separator (text : String) :
    parse ("\\" ++ text) = { parts := segments text.toList, kind := .fullyQualified } := by
  have whole : ("\\" ++ text).toList = '\\' :: text.toList := by simp
  simp only [parse, whole, List.head?_cons, if_true, List.tail_cons]

theorem parse_word (spelled : foldCase word = "namespace") (rest : String) :
    parse (word ++ "\\" ++ rest) = { parts := segments rest.toList, kind := .relative } := by
  have relative : isRelative (word ++ "\\" ++ rest).toList = true :=
    isRelative_iff.mpr ⟨word, rest, spelled, rfl⟩
  have front : (word ++ "\\" ++ rest).toList.head? ≠ some '\\' := by
    rw [String.append_assoc]
    exact head?_append (segment_of_spelled spelled) _
  simp only [parse]
  rw [if_neg front, if_pos relative, (take_mark spelled rest).2]

theorem parse_plain (front : text.toList.head? ≠ some '\\') (plain : ¬OpensRelative text) :
    parse text = { parts := segments text.toList
                   kind := if '\\' ∈ text.toList then .qualified else .unqualified } := by
  have other : ¬isRelative text.toList = true := fun relative => plain (isRelative_iff.mp relative)
  simp only [parse, List.contains_iff_mem]
  rw [if_neg front, if_neg other]
  split <;> rfl

end Parse

section ByteLength

def byteLength : List Char → Nat
  | [] => 0
  | c :: cs => c.utf8Size + byteLength cs

/-- The beginning of a text that takes up so many bytes, and what follows it; nothing where the text
is shorter or a character lies across the end. -/
def splitBytes? : Nat → List Char → Option (List Char × List Char)
  | 0, cs => some ([], cs)
  | _ + 1, [] => none
  | n + 1, c :: cs =>
    if c.utf8Size ≤ n + 1 then
      (splitBytes? (n + 1 - c.utf8Size) cs).map fun parts => (c :: parts.1, parts.2)
    else none

def afterMark? (cs : List Char) : Option (List Char) :=
  (splitBytes? (byteLength relativeMark) cs).bind fun parts =>
    if parts.1.map Char.toLower = relativeMark then some parts.2 else none

theorem splitBytes?_append (front back : List Char) :
    splitBytes? (byteLength front) (front ++ back) = some (front, back) := by
  induction front with
  | nil => cases back <;> rfl
  | cons c rest ih =>
    have some := c.utf8Size_pos
    obtain ⟨n, size⟩ : ∃ n, byteLength (c :: rest) = n + 1 :=
      Nat.exists_eq_succ_of_ne_zero (by rw [byteLength]; omega)
    have left : n + 1 - c.utf8Size = byteLength rest := by
      rw [← size, byteLength]
      omega
    have fits : c.utf8Size ≤ n + 1 := by
      rw [← size, byteLength]
      omega
    rw [size, List.cons_append, splitBytes?, if_pos fits, left, ih]
    rfl

theorem append_of_splitBytes? {n : Nat} {cs front back : List Char}
    (split : splitBytes? n cs = some (front, back)) : cs = front ++ back := by
  induction cs generalizing n front with
  | nil =>
    cases n with
    | zero => cases split; rfl
    | succ n => cases split
  | cons c rest ih =>
    cases n with
    | zero => cases split; rfl
    | succ n =>
      rw [splitBytes?] at split
      split at split
      next =>
        obtain ⟨parts, below, same⟩ := Option.map_eq_some_iff.mp split
        cases same
        rw [ih below, List.cons_append]
      next => cases split

theorem utf8Size_toLower (c : Char) : c.toLower.utf8Size = c.utf8Size := by
  unfold Char.toLower
  split
  next upper =>
    obtain ⟨low, high⟩ := upper
    have low : 65 ≤ c.val.toNat := UInt32.le_iff_toNat_le.mp low
    have high : c.val.toNat ≤ 90 := UInt32.le_iff_toNat_le.mp high
    have large : c.utf8Size = 1 := by
      rw [Char.utf8Size_eq_one_iff, UInt32.le_iff_toNat_le]
      exact Nat.le_trans high (by decide)
    rw [large, Char.utf8Size_eq_one_iff, UInt32.le_iff_toNat_le]
    show (c.val + 32).toNat ≤ 127
    have small : (32 : UInt32).toNat = 32 := rfl
    rw [UInt32.toNat_add]
    omega
  next => rfl

theorem byteLength_map_toLower (cs : List Char) :
    byteLength (cs.map Char.toLower) = byteLength cs := by
  induction cs with
  | nil => rfl
  | cons c rest ih => rw [List.map_cons, byteLength, byteLength, utf8Size_toLower, ih]

theorem afterMark?_eq (cs : List Char) :
    afterMark? cs = if isRelative cs then some (cs.drop relativeMark.length) else none := by
  by_cases relative : isRelative cs = true
  · rw [if_pos relative]
    rw [isRelative, beq_iff_eq] at relative
    -- letters take up as many bytes as their small forms, so the front has the size of the mark
    have split := splitBytes?_append (cs.take relativeMark.length) (cs.drop relativeMark.length)
    rw [← byteLength_map_toLower, relative, List.take_append_drop] at split
    rw [afterMark?, split, Option.bind_some, if_pos relative]
  · rw [if_neg relative, afterMark?, Option.bind_eq_none_iff]
    rintro ⟨front, back⟩ split
    refine if_neg fun same => relative ?_
    have long : front.length = relativeMark.length := by
      rw [← same, List.length_map]
    rw [append_of_splitBytes? split, isRelative, List.take_left' long, beq_iff_eq]
    exact same

/-- Reads a name, looking for the word `namespace` by its length in bytes. -/
def parseByBytes (text : String) : Name :=
  let cs := text.toList
  if cs.head? = some '\\' then { parts := segments cs.tail, kind := .fullyQualified }
  else
    match afterMark? cs with
    | some rest => { parts := segments rest, kind := .relative }
    | none =>
      { parts := segments cs, kind := if cs.contains '\\' then .qualified else .unqualified }

theorem parse_eq_parseByBytes (text : String) : parse text = parseByBytes text := by
  simp only [parse, parseByBytes, afterMark?_eq]
  split
  next => rfl
  next =>
    by_cases relative : isRelative text.toList = true
    · rw [if_pos relative, if_pos relative]
    · rw [if_neg relative, if_neg relative]
      split <;> rfl

end ByteLength

section RoundTrip

variable {ps : List String}

theorem head?_intercalate (some : ps ≠ []) (all : ∀ p ∈ ps, Segment p) :
    (String.intercalate "\\" ps).toList.head? ≠ Option.some '\\' := by
  match ps with
  | [] => exact absurd rfl some
  | [p] =>
    have bare := head?_append (all p List.mem_cons_self) ""
    rwa [String.append_empty] at bare
  | p :: q :: rest =>
    rw [String.intercalate_cons_cons, String.append_assoc]
    exact head?_append (all p List.mem_cons_self) _

theorem separator_mem_intercalate_iff (all : ∀ p ∈ ps, Segment p) :
    '\\' ∈ (String.intercalate "\\" ps).toList ↔ 1 < ps.length := by
  match ps with
  | [] => simp
  | [p] => simpa using (all p List.mem_cons_self).2
  | p :: q :: rest => simp

/-- Reading a text gives these segments and this kind, and printing the name joins them again. -/
structure ReadsAs (written : String) (kind : NameKind) (ps : List String) : Prop where
  parts : (parse written).parts = ps
  kind : (parse written).kind = kind
  printed : (parse written).text = String.intercalate "\\" ps

theorem readsAs_of_parse {written : String} {kind : NameKind}
    (read : parse written = { parts := ps, kind := kind }) : ReadsAs written kind ps := by
  refine ⟨?_, ?_, ?_⟩
  all_goals rw [read]
  rfl

theorem parse_intercalate (some : ps ≠ []) (all : ∀ p ∈ ps, Segment p)
    (other : 1 < ps.length → ∀ first ∈ ps.head?, foldCase first ≠ "namespace") :
    parse (String.intercalate "\\" ps) =
      { parts := ps, kind := if 1 < ps.length then .qualified else .unqualified } := by
  have apart := segments_intercalate all
  have between := separator_mem_intercalate_iff all
  have plain : ¬OpensRelative (String.intercalate "\\" ps) := by
    rintro ⟨word, rest, spelled, joined⟩
    have inside : '\\' ∈ (String.intercalate "\\" ps).toList := by simp [joined]
    rw [joined, segments_word (segment_of_spelled spelled)] at apart
    exact other (between.mp inside) word (by simp [← apart]) spelled
  rw [parse_plain (head?_intercalate some all) plain, apart]
  simp only [between]

theorem segment_of_mem_parts {text part : String} (member : part ∈ (parse text).parts) :
    Segment part := by
  simp only [parse] at member
  split at member
  next => exact segment_of_mem_segments member
  next =>
    split at member
    next => exact segment_of_mem_segments member
    next =>
      split at member
      all_goals exact segment_of_mem_segments member

/-- Segments are read back from their joined text: with a separator in front as a fully qualified
name, with the word `namespace` in front as a relative one, and as they are if they do not begin
with that word. What is read from a text consists of segments, whatever the text, and it makes no
difference that the word is looked for by characters and not by bytes. -/
theorem parse_inverts_text :
    (∀ ps : List String, ps ≠ [] → (∀ p ∈ ps, Segment p) →
      let joined := String.intercalate "\\" ps
      ReadsAs ("\\" ++ joined) .fullyQualified ps ∧
        (∀ word, foldCase word = "namespace" → ReadsAs (word ++ "\\" ++ joined) .relative ps) ∧
        ((1 < ps.length → ∀ first ∈ ps.head?, foldCase first ≠ "namespace") →
          ReadsAs joined (if 1 < ps.length then .qualified else .unqualified) ps)) ∧
      ∀ text, parse text = parseByBytes text ∧ ∀ part ∈ (parse text).parts, Segment part := by
  refine ⟨?_, fun text =>
    ⟨parse_eq_parseByBytes text, fun part member => segment_of_mem_parts member⟩⟩
  intro ps some all joined
  have apart : segments joined.toList = ps := segments_intercalate all
  refine ⟨readsAs_of_parse ?_, ?_, ?_⟩
  · rw [parse_separator, apart]
  · intro word spelled
    exact readsAs_of_parse (by rw [parse_word spelled, apart])
  · intro other
    exact readsAs_of_parse (parse_intercalate some all other)

theorem foreign_segments_read :
    let ps := ["Größe", "Namespace"]
    (∀ p ∈ ps, Segment p) ∧ foldCase "nameSPACE" = "namespace" ∧ foldCase "Größe" ≠ "namespace" ∧
      ReadsAs "\\Größe\\Namespace" .fullyQualified ps ∧
      ReadsAs "nameSPACE\\Größe\\Namespace" .relative ps ∧
      ReadsAs "Größe\\Namespace" .qualified ps := by
  intro ps
  have all : ∀ p ∈ ps, Segment p := by decide
  have spelled : foldCase "nameSPACE" = "namespace" := by decide +kernel
  have other : foldCase "Größe" ≠ "namespace" := by decide +kernel
  obtain ⟨full, relative, plain⟩ := parse_inverts_text.1 ps (by decide) all
  refine ⟨all, spelled, other, full, relative "nameSPACE" spelled, plain fun _ first head => ?_⟩
  cases head
  exact other

end RoundTrip

section Agreement

variable {text : String}

theorem toList_trimLeft (text : String) :
    (trimLeft '\\' text).toList = text.toList.dropWhile (· == '\\') := by
  rw [trimLeft, String.toList_ofList]

theorem parse_separator_trimLeft (text : String) : parse ("\\" ++ text) =
    { parts := segments (trimLeft '\\' text).toList, kind := .fullyQualified } := by
  rw [parse_separator, toList_trimLeft, segments_dropWhile]

theorem fullyQualified_of_word {word rest : String} (spelled : foldCase word = "namespace")
    (begins : trimLeft '\\' text = word ++ "\\" ++ rest) :
    fullyQualified text = { parts := segments rest.toList, kind := .fullyQualified } := by
  rw [fullyQualified, begins, parse_word spelled]

theorem fullyQualified_of_plain (plain : ¬OpensRelative (trimLeft '\\' text)) :
    fullyQualified text = parse ("\\" ++ text) := by
  have front : (trimLeft '\\' text).toList.head? ≠ some '\\' := by
    rw [toList_trimLeft]
    intro first
    have kept := List.head?_dropWhile_not (· == '\\') text.toList
    simp [first] at kept
  rw [fullyQualified, parse_plain front plain, parse_separator_trimLeft]

/-- A name that is built fully qualified is what is read with a separator in front, unless the text,
its separators in front left out, begins as a relative name does; then its first word is lost. -/
theorem fullyQualified_agrees (text : String) :
    (fullyQualified text = parse ("\\" ++ text) ↔ ¬OpensRelative (trimLeft '\\' text)) ∧
      (fullyQualified text).kind = (parse ("\\" ++ text)).kind ∧
      ∀ word rest, foldCase word = "namespace" → trimLeft '\\' text = word ++ "\\" ++ rest →
        (parse ("\\" ++ text)).parts = word :: (fullyQualified text).parts := by
  have lost : ∀ word rest, foldCase word = "namespace" →
      trimLeft '\\' text = word ++ "\\" ++ rest →
        (parse ("\\" ++ text)).parts = word :: (fullyQualified text).parts := by
    intro word rest spelled begins
    rw [fullyQualified_of_word spelled begins, parse_separator_trimLeft, begins,
      segments_word (segment_of_spelled spelled)]
  refine ⟨⟨?_, fullyQualified_of_plain⟩, ?_, lost⟩
  · rintro same ⟨word, rest, spelled, begins⟩
    have longer := congrArg List.length (lost word rest spelled begins)
    rw [← same, List.length_cons] at longer
    omega
  · rw [parse_separator]
    rfl

theorem capital_word_lost :
    foldCase "NAMESPACE" = "namespace" ∧
      trimLeft '\\' "\\\\NAMESPACE\\A" = "NAMESPACE" ++ "\\" ++ "A" ∧
      (parse "\\\\\\NAMESPACE\\A").parts =
        "NAMESPACE" :: (fullyQualified "\\\\NAMESPACE\\A").parts := by
  have spelled : foldCase "NAMESPACE" = "namespace" := by decide +kernel
  have begins : trimLeft '\\' "\\\\NAMESPACE\\A" = "NAMESPACE" ++ "\\" ++ "A" := by
    decide +kernel
  exact ⟨spelled, begins, (fullyQualified_agrees _).2.2 "NAMESPACE" "A" spelled begins⟩

theorem namespace_word_lost :
    fullyQualified "namespace\\A" ≠ parse ("\\" ++ "namespace\\A") ∧
      fullyQualified "namespace\\A" = { parts := ["A"], kind := .fullyQualified } ∧
      parse ("\\" ++ "namespace\\A") =
        { parts := ["namespace", "A"], kind := .fullyQualified } := by
  decide +kernel

end Agreement

end Name

end ConstExpr

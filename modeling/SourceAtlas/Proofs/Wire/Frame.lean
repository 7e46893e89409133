import Mathlib.Data.List.DropRight
import SourceAtlas.Json.Writer
import SourceAtlas.Wire.Frame
/-!
# Frames are read as they were written

A frame is read again with the octets that follow it left over (`read_write_append`),
and a frame that is cut short is not read at all (`read_take_write`): before the blank
line the block of headers lacks its end, and after it there is less of the body than the
header says. Therefore the start of a stream of messages gives the bodies that are wholly
there and no others (`readAll_take_stream`).
-/

namespace SourceAtlas

namespace Frame

variable {ended seen : Bool} {length : Option Nat} {bs line rest body : List UInt8} {n k : Nat}

/-! ## Lines -/

theorem takeLine?_feed (h : 0x0A ∉ line) (ended : Bool) (rest : List UInt8) :
    takeLine? ended (line ++ 0x0A :: rest) = some (line ++ [0x0A], rest) := by
  have hline : ∀ b ∈ line, decide (b ≠ 0x0A) = true := fun b hb =>
    decide_eq_true fun heq => h (heq ▸ hb)
  rw [takeLine?, List.dropWhile_append_of_pos hline, List.takeWhile_append_of_pos hline]
  simp

theorem takeLine?_open (h : 0x0A ∉ line) (hne : line ≠ []) :
    takeLine? true line = some (line, []) := by
  have hdrop : line.dropWhile (fun b => decide (b ≠ 0x0A)) = [] :=
    List.dropWhile_eq_nil_iff.mpr fun b hb => decide_eq_true fun heq => h (heq ▸ hb)
  rw [takeLine?, hdrop]
  simpa using hne

theorem splitHeader?_append {name : List Char} (h : name.all (fun c => c ≠ ':') = true)
    (value : List Char) : splitHeader? (name ++ ':' :: value) = some (name, value) := by
  have h := List.all_eq_true.mp h
  rw [splitHeader?, List.dropWhile_append_of_pos h, List.takeWhile_append_of_pos h]
  simp

theorem dropLineEnd_eq_rdropWhile (cs : List Char) :
    dropLineEnd cs = cs.rdropWhile fun c => c == '\r' || c == '\n' := rfl

theorem dropLineEnd_append {cs : List Char} (hcs : ∀ c ∈ cs, c ≠ '\r' ∧ c ≠ '\n') :
    dropLineEnd (cs ++ ['\r'] ++ ['\n']) = cs := by
  rw [dropLineEnd_eq_rdropWhile, List.rdropWhile_concat_pos _ _ _ rfl,
    List.rdropWhile_concat_pos _ _ _ rfl, List.rdropWhile_eq_self_iff]
  intro hne
  simpa using hcs _ (List.getLast_mem hne)

theorem dropLineEnd_ne_nil {c : Char} {cs : List Char} (hc : c ∈ cs) (hr : c ≠ '\r')
    (hn : c ≠ '\n') : dropLineEnd cs ≠ [] := by
  rw [dropLineEnd_eq_rdropWhile, ne_eq, List.rdropWhile_eq_nil_iff]
  intro hall
  simpa [hr, hn] using hall c hc

/-! ## Blocks of headers -/

theorem readHeaders_nil (seen : Bool) (length : Option Nat) :
    readHeaders true seen length [] = if seen then .broken .endedInHeader else .ended := by
  rw [readHeaders]
  rfl

/-- What a line says decides how reading goes on. -/
theorem readHeaders_of_line (h : takeLine? ended bs = some (line, rest)) (seen : Bool)
    (length : Option Nat) :
    readHeaders ended seen length bs =
      match readLine line with
      | .error fault => .broken fault
      | .ok .blank =>
          if seen then readBody ended length rest else readHeaders ended false length rest
      | .ok (.length n) => readHeaders ended true (some n) rest
      | .ok .other => readHeaders ended true length rest := by
  rw [readHeaders]
  split
  · rename_i hnone
    rw [h] at hnone
    cases hnone
  · rename_i hsome
    rw [h] at hsome
    cases hsome
    rfl

/-- A blank line after a header ends the block. -/
theorem readHeaders_blank (ended : Bool) (length : Option Nat) (rest : List UInt8) :
    readHeaders ended true length (0x0D :: 0x0A :: rest) = readBody ended length rest := by
  have hblank : readLine [0x0D, 0x0A] = .ok .blank := by decide +kernel
  have hline : takeLine? ended ([0x0D] ++ 0x0A :: rest) = some ([0x0D] ++ [0x0A], rest) :=
    takeLine?_feed (by decide) ended rest
  rw [← List.singleton_append, readHeaders_of_line hline, List.singleton_append, hblank]
  rfl

/-- A block whose first line lacks its line feed is cut short. -/
theorem readHeaders_open (h : 0x0A ∉ line) (hne : line ≠ []) (hblank : readLine line ≠ .ok .blank) :
    ∃ fault, readHeaders true seen length line = .broken fault := by
  rw [readHeaders_of_line (takeLine?_open h hne)]
  cases hline : readLine line with
  | error fault => exact ⟨fault, rfl⟩
  | ok l =>
      cases l with
      | blank => exact absurd hline hblank
      | length n => exact ⟨.endedInHeader, readHeaders_nil true (some n)⟩
      | other => exact ⟨.endedInHeader, readHeaders_nil true length⟩

/-! ## The header of a frame -/

def lengthName : List Char := "Content-Length".toList

def lengthPrefix : List Char := lengthName ++ [':', ' ']

/-- The first line of a frame, without its line feed. -/
def firstLine (n : Nat) : List Char := lengthPrefix ++ Nat.toDigits 10 n ++ ['\r']

theorem isDigit_of_mem_toDigits {c : Char} (h : c ∈ Nat.toDigits 10 n) : c.isDigit = true :=
  Nat.isDigit_of_mem_toDigits (by decide) (by decide) h

theorem mem_header {c : Char} (h : c ∈ lengthPrefix ++ Nat.toDigits 10 n) :
    0x20 ≤ c.toNat ∧ c.toNat < 0x80 := by
  rcases List.mem_append.mp h with hprefix | hdigit
  · have hplain : lengthPrefix.all (fun c => 0x20 ≤ c.toNat ∧ c.toNat < 0x80) = true := by decide
    simpa using List.all_eq_true.mp hplain c hprefix
  · have hdigit := isDigit_of_mem_toDigits hdigit
    rw [Char.isDigit_iff_toNat] at hdigit
    exact ⟨le_trans (by decide) hdigit.1, lt_of_le_of_lt hdigit.2 (by decide)⟩

/-- No character of a header ends a line. -/
theorem ne_lineEnd_of_mem_header {c : Char} (h : c ∈ lengthPrefix ++ Nat.toDigits 10 n) :
    c ≠ '\r' ∧ c ≠ '\n' := by
  have hlow := (mem_header h).1
  constructor
  · rintro rfl
    exact absurd hlow (by decide)
  · rintro rfl
    exact absurd hlow (by decide)

theorem mem_firstLine {c : Char} (h : c ∈ firstLine n) : c.toNat < 0x80 ∧ c ≠ '\n' := by
  rcases List.mem_append.mp h with hheader | hend
  · exact ⟨(mem_header hheader).2, (ne_lineEnd_of_mem_header hheader).2⟩
  · rw [List.mem_singleton.mp hend]
    decide

theorem ascii_firstLine_append {tail : List Char} (h : tail.all (fun c => c.toNat < 0x80) = true) :
    ∀ c ∈ firstLine n ++ tail, c.toNat < 0x80 := by
  intro c hc
  rcases List.mem_append.mp hc with hc | hc
  · exact (mem_firstLine hc).1
  · simpa using List.all_eq_true.mp h c hc

theorem feed_not_mem_ascii {cs : List Char} (h : ∀ c ∈ cs, c.toNat < 0x80 ∧ c ≠ '\n') :
    0x0A ∉ Utf8.ascii cs := by
  intro hmem
  obtain ⟨c, hc, heq⟩ := List.mem_map.mp hmem
  obtain ⟨hlt, hne⟩ := h c hc
  have hnat : (UInt8.ofNat c.toNat).toNat = c.toNat :=
    UInt8.toNat_ofNat_of_lt (lt_trans hlt (by decide))
  rw [heq] at hnat
  exact hne (Char.toNat_inj.mp hnat.symm)

theorem write_eq (body : List UInt8) :
    write body = Utf8.ascii (firstLine body.length) ++ 0x0A :: 0x0D :: 0x0A :: body := by
  have hprefix : "Content-Length: ".toList = lengthPrefix := by decide
  have hlength : (toString body.length).toList = Nat.toDigits 10 body.length := Nat.toList_repr
  have hend : "\r\n\r\n".toList = ['\r'] ++ ['\n', '\r', '\n'] := by decide
  have hchars : ("Content-Length: " ++ toString body.length ++ "\r\n\r\n").toList =
      firstLine body.length ++ ['\n', '\r', '\n'] := by
    rw [String.toList_append, String.toList_append, hprefix, hlength, hend]
    exact (List.append_assoc _ _ _).symm
  have htext : s!"Content-Length: {body.length}\r\n\r\n" =
      String.ofList (firstLine body.length ++ ['\n', '\r', '\n']) := by
    rw [← hchars, String.ofList_toList]
    rfl
  rw [write, htext, Utf8.encode_ofList_of_ascii (ascii_firstLine_append (by decide)), Utf8.ascii,
    List.map_append, List.append_assoc]
  rfl

theorem isBlank_of_isDigit {c : Char} (h : c.isDigit = true) : Text.isBlank c = false := by
  rw [Char.isDigit_iff_toNat] at h
  have hlow : 0x30 ≤ c.toNat := h.1
  have hhigh : c.toNat ≤ 0x39 := h.2
  simp only [Text.isBlank, Bool.or_eq_false_iff, Bool.and_eq_false_iff, decide_eq_false_iff_not,
    beq_eq_false_iff_ne]
  omega

theorem trimChars_blank_digits (n : Nat) :
    Text.trimChars (' ' :: Nat.toDigits 10 n) = Nat.toDigits 10 n := by
  have hkeep : ∀ {cs : List Char}, (∀ c ∈ cs, c.isDigit = true) →
      cs.dropWhile Text.isBlank = cs := fun h =>
    List.dropWhile_eq_self_iff.mpr fun hl => by
      simp [isBlank_of_isDigit (h _ (List.getElem_mem hl))]
  have hdigits : ∀ c ∈ Nat.toDigits 10 n, c.isDigit = true := fun c hc => isDigit_of_mem_toDigits hc
  rw [Text.trimChars, Text.stripBy, List.dropWhile_cons_of_pos (by decide), hkeep hdigits,
    hkeep fun c hc => hdigits c (List.mem_reverse.mp hc), List.reverse_reverse]

/-- The first line of a frame tells the length of its body. -/
theorem readLine_firstLine (h : n < UInt64.size) :
    readLine (Utf8.ascii (firstLine n) ++ [0x0A]) = .ok (.length n) := by
  have hfeed : Utf8.ascii (firstLine n) ++ [0x0A] = Utf8.ascii (firstLine n ++ ['\n']) := by
    rw [Utf8.ascii, Utf8.ascii, List.map_append]
    rfl
  have hheader : dropLineEnd (firstLine n ++ ['\n']) =
      lengthName ++ ':' :: ' ' :: Nat.toDigits 10 n := by
    rw [firstLine, dropLineEnd_append fun c hc => ne_lineEnd_of_mem_header hc, lengthPrefix,
      List.append_assoc]
    rfl
  have hname : isLengthHeader lengthName = true := by decide +kernel
  rw [hfeed, readLine, Utf8.decode?_ascii (ascii_firstLine_append (by decide))]
  dsimp only
  rw [String.toList_ofList, hheader, splitHeader?_append (by decide)]
  simp [hname, trimChars_blank_digits, Text.number?_toDigits h]

/-! ## Frames -/

/-- After its first line a frame goes on with a blank line. -/
theorem readHeaders_firstLine (h : n < UInt64.size) (ended : Bool) (rest : List UInt8) :
    readHeaders ended false none (Utf8.ascii (firstLine n) ++ 0x0A :: rest) =
      readHeaders ended true (some n) rest := by
  have hfeed : 0x0A ∉ Utf8.ascii (firstLine n) := feed_not_mem_ascii fun c hc => mem_firstLine hc
  rw [readHeaders_of_line (takeLine?_feed hfeed ended rest), readLine_firstLine h]

theorem lt_size_of_le_maxLength (h : n ≤ maxLength) : n < UInt64.size :=
  lt_of_le_of_lt h (by decide)

/-- A frame is read as it was written, whatever follows it. -/
theorem read_write_append (h : body.length ≤ maxLength) (ended : Bool) (rest : List UInt8) :
    read ended (write body ++ rest) = .body body rest := by
  rw [read, write_eq, List.append_assoc, List.cons_append, List.cons_append, List.cons_append,
    readHeaders_firstLine (lt_size_of_le_maxLength h), readHeaders_blank, readBody]
  simp [Nat.not_lt.mpr h]

theorem readBody_short (h : n ≤ maxLength) (hlt : bs.length < n) :
    readBody true (some n) bs = .broken .endedInBody := by
  simp [readBody, Nat.not_lt.mpr h, Nat.not_le.mpr hlt]

/-- A line with any character but line ends is not blank. -/
theorem readLine_ne_blank {c : Char} {cs : List Char} (hascii : ∀ c ∈ cs, c.toNat < 0x80)
    (hc : c ∈ cs) (hr : c ≠ '\r') (hn : c ≠ '\n') : readLine (Utf8.ascii cs) ≠ .ok .blank := by
  have hheader : (dropLineEnd cs).isEmpty = false := by
    simpa using dropLineEnd_ne_nil hc hr hn
  rw [readLine, Utf8.decode?_ascii hascii]
  dsimp only
  rw [String.toList_ofList, hheader, if_neg Bool.false_ne_true]
  split
  · simp
  · split
    · split <;> simp
    · simp

/-- A frame that ends in its first line is broken. Fewer digits are a number too, but no
blank line follows them. -/
theorem read_take_firstLine (hpos : 0 < k) :
    ∃ fault, read true (Utf8.ascii ((firstLine n).take k)) = .broken fault := by
  have hmem : ∀ c ∈ (firstLine n).take k, c.toNat < 0x80 ∧ c ≠ '\n' := fun c hc =>
    mem_firstLine (List.mem_of_mem_take hc)
  have hfirst : 'C' ∈ (firstLine n).take k := by
    have hprefix : lengthPrefix = 'C' :: lengthPrefix.tail := by decide
    obtain ⟨j, rfl⟩ := Nat.exists_eq_add_of_lt hpos
    rw [firstLine, hprefix, List.cons_append, List.cons_append, List.take_succ_cons]
    exact List.mem_cons_self
  have hne : Utf8.ascii ((firstLine n).take k) ≠ [] := by
    rw [Utf8.ascii, ne_eq, List.map_eq_nil_iff]
    exact List.ne_nil_of_mem hfirst
  exact readHeaders_open (feed_not_mem_ascii hmem) hne
    (readLine_ne_blank (fun c hc => (hmem c hc).1) hfirst (by decide) (by decide))

/-- A frame that ends after its first line is broken, as long as there is more of its
body to come. -/
theorem read_firstLine_take (h : body.length ≤ maxLength) (hne : body ≠ [])
    (hk : k < body.length + 2) :
    ∃ fault, read true (Utf8.ascii (firstLine body.length) ++
      0x0A :: (0x0D :: 0x0A :: body).take k) = .broken fault := by
  rw [read, readHeaders_firstLine (lt_size_of_le_maxLength h)]
  match k with
  | 0 => exact ⟨_, readHeaders_nil true _⟩
  | 1 =>
      -- A lone carriage return counts as the blank line.
      have hblank : readLine [0x0D] = .ok .blank := by decide +kernel
      have hshort : readBody true (some body.length) [] = .broken .endedInBody :=
        readBody_short h (List.length_pos_iff.mpr hne)
      refine ⟨.endedInBody, ?_⟩
      rw [List.take_succ_cons, List.take_zero,
        readHeaders_of_line (takeLine?_open (by decide) (List.cons_ne_nil _ _)), hblank]
      exact hshort
  | j + 2 =>
      have hshort : (body.take j).length < body.length := by
        rw [List.length_take]
        omega
      refine ⟨.endedInBody, ?_⟩
      rw [List.take_succ_cons, List.take_succ_cons, readHeaders_blank, readBody_short h hshort]

/-- A frame that is cut short is broken. -/
theorem read_take_write (h : body.length ≤ maxLength) (hne : body ≠ []) (hpos : 0 < k)
    (hk : k < (write body).length) : ∃ fault, read true ((write body).take k) = .broken fault := by
  rw [write_eq] at hk ⊢
  rcases Nat.lt_or_ge (Utf8.ascii (firstLine body.length)).length k with hlt | hle
  · obtain ⟨j, rfl⟩ := Nat.exists_eq_add_of_lt hlt
    rw [List.length_append, List.length_cons, List.length_cons, List.length_cons] at hk
    rw [Nat.add_assoc, List.take_length_add_append, List.take_succ_cons]
    exact read_firstLine_take h hne (by omega)
  · rw [List.take_append_of_le_length hle, Utf8.ascii, List.map_take.symm]
    exact read_take_firstLine hpos

/-! ## Streams -/

theorem readAll_nil : readAll [] = ([], none) := by
  have hended : read true [] = .ended := readHeaders_nil false none
  rw [readAll]
  split <;> simp_all

theorem readAll_of_body (h : read true bs = .body body rest) :
    readAll bs = (body :: (readAll rest).1, (readAll rest).2) := by
  rw [readAll]
  split <;> simp_all

theorem readAll_of_broken {fault : Fault} (h : read true bs = .broken fault) :
    readAll bs = ([], some fault) := by
  rw [readAll]
  split <;> simp_all

/-- The start of a frame gives no body. -/
theorem readAll_take_write (h : body.length ≤ maxLength) (hne : body ≠ [])
    (hk : k < (write body).length) :
    (readAll ((write body).take k)).1 = [] ∧
      ((readAll ((write body).take k)).2 = none ↔ k = 0) := by
  rcases Nat.eq_zero_or_pos k with rfl | hpos
  · rw [List.take_zero, readAll_nil]
    exact ⟨rfl, by simp⟩
  · obtain ⟨fault, hfault⟩ := read_take_write h hne hpos hk
    rw [readAll_of_broken hfault]
    exact ⟨rfl, by simp [hpos.ne']⟩

/-- The body of the message that carries a value. -/
def bodyOf (v : Json) : List UInt8 := Utf8.encode v.write

/-- The octets of messages, one after another. -/
def stream (vs : List Json) : List UInt8 := vs.flatMap fun v => write (bodyOf v)

theorem stream_cons (v : Json) (vs : List Json) : stream (v :: vs) = write (bodyOf v) ++ stream vs :=
  List.flatMap_cons

/-- No message has an empty body. -/
theorem bodyOf_ne_nil (v : Json) : bodyOf v ≠ [] := by
  rw [bodyOf, ne_eq, Utf8.encode_eq_nil_iff]
  intro h
  have hchars : v.write.toList = v.writeChars := String.toList_ofList
  rw [h] at hchars
  exact v.writeChars_ne_nil hchars.symm

theorem length_write_pos (body : List UInt8) : 0 < (write body).length := by
  rw [write_eq, List.length_append, List.length_cons]
  omega

/-- A stream that is whole gives every body. -/
theorem readAll_stream {vs : List Json} (h : ∀ v ∈ vs, (bodyOf v).length ≤ maxLength) :
    readAll (stream vs) = (vs.map bodyOf, none) := by
  induction vs with
  | nil => exact readAll_nil
  | cons v vs ih =>
      rw [stream_cons, readAll_of_body (read_write_append (h v List.mem_cons_self) true _),
        ih fun w hw => h w (List.mem_cons_of_mem v hw)]
      rfl

theorem length_stream_take_succ (v : Json) (vs : List Json) (m : Nat) :
    (stream ((v :: vs).take (m + 1))).length =
      (write (bodyOf v)).length + (stream (vs.take m)).length := by
  rw [List.take_succ_cons, stream_cons, List.length_append]

/-- The messages of a stream end where the first one does and where those after it do. -/
theorem exists_boundary_cons {v : Json} {vs : List Json} :
    (∃ m ≤ (v :: vs).length, k = (stream ((v :: vs).take m)).length) ↔
      k = 0 ∨ ∃ m ≤ vs.length, k = (write (bodyOf v)).length + (stream (vs.take m)).length := by
  constructor
  · rintro ⟨m, hm, rfl⟩
    cases m with
    | zero => exact .inl rfl
    | succ m => exact .inr ⟨m, Nat.le_of_succ_le_succ hm, length_stream_take_succ v vs m⟩
  · rintro (rfl | ⟨m, hm, rfl⟩)
    · exact ⟨0, Nat.zero_le _, rfl⟩
    · exact ⟨m + 1, Nat.succ_le_succ hm, (length_stream_take_succ v vs m).symm⟩

/-- The start of a stream gives the bodies of the messages that are wholly in it, and what
is there of another message breaks it. -/
theorem readAll_take {vs : List Json} (h : ∀ v ∈ vs, (bodyOf v).length ≤ maxLength)
    (hk : k ≤ (stream vs).length) :
    ∃ n ≤ vs.length, (∀ m ≤ vs.length, (stream (vs.take m)).length ≤ k ↔ m ≤ n) ∧
      (readAll ((stream vs).take k)).1 = (vs.take n).map bodyOf ∧
      ((readAll ((stream vs).take k)).2 = none ↔
        ∃ m ≤ vs.length, k = (stream (vs.take m)).length) := by
  induction vs generalizing k with
  | nil =>
      obtain rfl : k = 0 := Nat.le_zero.mp hk
      rw [List.take_zero, readAll_nil]
      exact ⟨0, le_rfl, fun m hm => ⟨fun _ => hm, fun _ => by simp [stream]⟩, rfl, by simp [stream]⟩
  | cons v vs ih =>
      have hv := h v List.mem_cons_self
      have hpos := length_write_pos (bodyOf v)
      rw [exists_boundary_cons]
      rcases Nat.lt_or_ge k (write (bodyOf v)).length with hlt | hle
      · obtain ⟨hbodies, hend⟩ := readAll_take_write hv (bodyOf_ne_nil v) hlt
        rw [stream_cons, List.take_append_of_le_length hlt.le]
        refine ⟨0, Nat.zero_le _, fun m _ => ?_, hbodies, hend.trans ?_⟩
        · cases m with
          | zero => simp [stream]
          | succ m =>
              rw [length_stream_take_succ]
              omega
        · refine ⟨.inl, fun hk => hk.resolve_right ?_⟩
          rintro ⟨m, -, hm⟩
          omega
      · obtain ⟨j, rfl⟩ := Nat.exists_eq_add_of_le hle
        have hj : j ≤ (stream vs).length := by
          rw [stream_cons, List.length_append] at hk
          omega
        obtain ⟨n, hn, hwhole, hbodies, hend⟩ := ih (fun w hw => h w (List.mem_cons_of_mem v hw)) hj
        rw [stream_cons, List.take_length_add_append,
          readAll_of_body (read_write_append hv true _)]
        refine ⟨n + 1, Nat.succ_le_succ hn, fun m hm => ?_, ?_, hend.trans ?_⟩
        · cases m with
          | zero => simp [stream]
          | succ m =>
              rw [length_stream_take_succ, Nat.add_le_add_iff_left,
                hwhole m (Nat.le_of_succ_le_succ hm), Nat.add_le_add_iff_right]
        · rw [hbodies]
          rfl
        · simp [hpos.ne']

/-! ## Main statement -/

/-- A stream of messages gives the bodies of all of them, octet by octet. Its first `k`
octets give the bodies of the messages that end within them and no others; the stream then
ends as it should if a message ends there, and is broken if none does. -/
theorem readAll_take_stream {vs : List Json} (h : ∀ v ∈ vs, (bodyOf v).length ≤ maxLength) :
    readAll (stream vs) = (vs.map bodyOf, none) ∧
    ∀ k ≤ (stream vs).length, ∃ n ≤ vs.length,
      (∀ m ≤ vs.length, (stream (vs.take m)).length ≤ k ↔ m ≤ n) ∧
      (readAll ((stream vs).take k)).1 = (vs.take n).map bodyOf ∧
      ((readAll ((stream vs).take k)).2 = none ↔
        ∃ m ≤ vs.length, k = (stream (vs.take m)).length) :=
  ⟨readAll_stream h, fun _ hk => readAll_take h hk⟩

/-- Two messages, of 29 and 25 octets. -/
def twoMessages : List Json := [.object [("id", .nat 1)], .string "é"]

/-- A cut between the two octets of one character leaves the first message. -/
theorem readAll_take_stream_twoMessages :
    (∀ v ∈ twoMessages, (bodyOf v).length ≤ maxLength) ∧ 52 ≤ (stream twoMessages).length ∧
      (readAll ((stream twoMessages).take 52)).1 = [bodyOf (.object [("id", .nat 1)])] ∧
      (readAll ((stream twoMessages).take 52)).2 ≠ none ∧
      readAll (stream twoMessages) = (twoMessages.map bodyOf, none) := by
  have hshort : ∀ v ∈ twoMessages, (bodyOf v).length ≤ maxLength := by
    simp only [twoMessages, List.forall_mem_cons, List.not_mem_nil, false_imp_iff, implies_true,
      and_true]
    decide +kernel
  have hcut : 52 ≤ (stream twoMessages).length := by decide +kernel
  obtain ⟨hwhole, hcuts⟩ := readAll_take_stream hshort
  obtain ⟨n, hn, hends, hbodies, hboundary⟩ := hcuts 52 hcut
  have hfirst : 1 ≤ n := (hends 1 (by decide)).mp (by decide +kernel)
  have hsecond : ¬ 2 ≤ n := fun hle =>
    absurd ((hends 2 (by decide)).mpr hle) (by decide +kernel)
  obtain rfl : n = 1 := by omega
  refine ⟨hshort, hcut, hbodies, fun hnone => ?_, hwhole⟩
  have hnowhere : ∀ m ≤ twoMessages.length, 52 ≠ (stream (twoMessages.take m)).length := by
    decide +kernel
  obtain ⟨m, hm, heq⟩ := hboundary.mp hnone
  exact hnowhere m hm heq

end Frame

end SourceAtlas

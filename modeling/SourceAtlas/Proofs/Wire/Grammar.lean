import SourceAtlas.Proofs.Wire.Header
/-!
# The grammar of frames

A frame is told here as a grammar (`IsFrame`): blank lines, a block of headers that gives a
length (`Gives`), a blank line, and as many octets. The reader goes through a stream line by
line, and `readHeaders_cases` says what each line makes it do; so by induction on what is left
of the stream, it finds a body exactly where the grammar has a frame (`read_eq_body_iff`) and
its end exactly where only blank lines are left (`read_eq_ended_iff`). Everything else breaks
the stream.

A frame takes at least one octet, so reading one frame after another ends on every stream
(`reads_iff`).
-/

namespace SourceAtlas

namespace Frame

variable {s line rest body : List UInt8} {lines lines' headers blanks : List (List UInt8)}
  {length : Option Nat} {n : Nat} {l : Line} {seen : Bool}

/-! ## The grammar -/

/-- Lines one after another, with what follows the last one. -/
def AreLines : List (List UInt8) → List UInt8 → Prop
  | [], _ => True
  | line :: lines, rest => IsLine line (lines.flatten ++ rest) ∧ AreLines lines rest

/-- Headers that give a length: the value of the last one among them that has the name of the
length. -/
def Gives (headers : List (List UInt8)) (n : Nat) : Prop :=
  ∃ before line after, headers = before ++ line :: after ∧
    (∀ header ∈ before, Tells header .other ∨ ∃ m, Tells header (.length m)) ∧
    Tells line (.length n) ∧ ∀ header ∈ after, Tells header .other

/-- A stream that starts with a frame: blank lines, headers, a blank line and a body as long as
the headers say. -/
def IsFrame (s body rest : List UInt8) : Prop :=
  ∃ blanks headers last, s = blanks.flatten ++ (headers.flatten ++ (last ++ (body ++ rest))) ∧
    AreLines (blanks ++ (headers ++ [last])) (body ++ rest) ∧
    (∀ line ∈ blanks, IsBlank line) ∧ Gives headers body.length ∧ IsBlank last ∧
    body.length ≤ maxLength

/-- A stream of nothing but blank lines. -/
def IsSilent (s : List UInt8) : Prop :=
  ∃ blanks : List (List UInt8), s = blanks.flatten ∧ AreLines blanks [] ∧
    ∀ line ∈ blanks, IsBlank line

theorem areLines_append :
    AreLines (lines ++ lines') rest ↔ AreLines lines (lines'.flatten ++ rest) ∧ AreLines lines' rest := by
  induction lines with
  | nil => simp [AreLines]
  | cons line lines ih =>
      rw [List.cons_append, AreLines, ih, AreLines, List.flatten_append, List.append_assoc, and_assoc]

theorem areLines_concat :
    AreLines (lines ++ [line]) rest ↔ AreLines lines (line ++ rest) ∧ IsLine line rest := by
  rw [areLines_append]
  simp [AreLines]

/-- The length that headers come to when one was given before them. -/
def GivesAfter (length : Option Nat) (headers : List (List UInt8)) (n : Nat) : Prop :=
  Gives headers n ∨ (length = some n ∧ ∀ header ∈ headers, Tells header .other)

theorem not_gives_nil : ¬ Gives [] n := by
  rintro ⟨before, line, after, heq, -⟩
  exact absurd heq (by simp)

theorem givesAfter_nil : GivesAfter length [] n ↔ length = some n := by
  simp [GivesAfter, not_gives_nil]

theorem givesAfter_none : GivesAfter none headers n ↔ Gives headers n := by
  simp [GivesAfter]

/-- A header replaces the length that was given before it, or leaves it. -/
theorem givesAfter_cons :
    GivesAfter length (line :: headers) n ↔
      (∃ m, Tells line (.length m) ∧ GivesAfter (some m) headers n) ∨
        (Tells line .other ∧ GivesAfter length headers n) := by
  constructor
  · rintro (⟨before, header, after, heq, hbefore, hheader, hafter⟩ | ⟨hlength, hall⟩)
    · cases before with
      | nil =>
          obtain ⟨rfl, rfl⟩ := List.cons.inj heq
          exact .inl ⟨n, hheader, .inr ⟨rfl, hafter⟩⟩
      | cons first before =>
          obtain ⟨rfl, rfl⟩ := List.cons.inj heq
          rw [List.forall_mem_cons] at hbefore
          have hgives : Gives (before ++ header :: after) n :=
            ⟨before, header, after, rfl, hbefore.2, hheader, hafter⟩
          rcases hbefore.1 with hother | ⟨m, hm⟩
          · exact .inr ⟨hother, .inl hgives⟩
          · exact .inl ⟨m, hm, .inl hgives⟩
    · rw [List.forall_mem_cons] at hall
      exact .inr ⟨hall.1, .inr ⟨hlength, hall.2⟩⟩
  · have further (hline : Tells line .other ∨ ∃ m, Tells line (.length m)) (h : Gives headers n) :
        Gives (line :: headers) n := by
      obtain ⟨before, header, after, rfl, hbefore, hheader, hafter⟩ := h
      exact ⟨line :: before, header, after, rfl, List.forall_mem_cons.mpr ⟨hline, hbefore⟩,
        hheader, hafter⟩
    rintro (⟨m, hm, hgives | ⟨hlength, hall⟩⟩ | ⟨hother, hgives | ⟨hlength, hall⟩⟩)
    · exact .inl (further (.inr ⟨m, hm⟩) hgives)
    · obtain rfl := Option.some.inj hlength
      exact .inl ⟨[], line, headers, rfl, by simp, hm, hall⟩
    · exact .inl (further (.inl hother) hgives)
    · exact .inr ⟨hlength, List.forall_mem_cons.mpr ⟨hother, hall⟩⟩

/-! ## One line -/

/-- What a line makes the reader do. -/
theorem readHeaders_append (hline : IsLine line rest) (htells : Tells line l) (seen : Bool)
    (length : Option Nat) :
    readHeaders true seen length (line ++ rest) =
      match l with
      | .blank => if seen then readBody true length rest else readHeaders true false length rest
      | .length n => readHeaders true true (some n) rest
      | .other => readHeaders true true length rest := by
  rw [readHeaders_of_line hline.takeLine?_append, readLine_of_tells htells]
  cases l <;> rfl

/-- The reader is at the end of the stream, or at a line that says nothing and breaks it, or at
one that is blank or a header. -/
theorem readHeaders_cases (seen : Bool) (length : Option Nat) (s : List UInt8) :
    (s = [] ∧ readHeaders true seen length s =
      if seen then .broken .endedInHeader else .ended) ∨
    (∃ fault, readHeaders true seen length s = .broken fault) ∨
    ∃ line rest, s = line ++ rest ∧ IsLine line rest ∧ rest.length < s.length ∧
      (IsBlank line ∧ readHeaders true seen length s =
          (if seen then readBody true length rest else readHeaders true false length rest) ∨
        (∃ n, Tells line (.length n) ∧
          readHeaders true seen length s = readHeaders true true (some n) rest) ∨
        (Tells line .other ∧ readHeaders true seen length s = readHeaders true true length rest)) := by
  rcases takeLine?_cases s with ⟨rfl, -⟩ | ⟨line, rest, rfl, hline, htake⟩
  · exact .inl ⟨rfl, readHeaders_nil seen length⟩
  · have hshort : rest.length < (line ++ rest).length := by
      rw [List.length_append]
      exact Nat.lt_add_of_pos_left (List.length_pos_iff.mpr hline.ne_nil)
    cases hread : readLine line with
    | error fault => exact .inr (.inl ⟨fault, by rw [readHeaders_of_line htake, hread]⟩)
    | ok l =>
        have htells := (readLine_eq_ok_iff hline).mp hread
        have hnext := readHeaders_append hline htells seen length
        refine .inr (.inr ⟨line, rest, rfl, hline, hshort, ?_⟩)
        cases htells with
        | blank hblank => exact .inl ⟨hblank, hnext⟩
        | length hheader hname hvalue => exact .inr (.inl ⟨_, .length hheader hname hvalue, hnext⟩)
        | other hheader hname => exact .inr (.inr ⟨.other hheader hname, hnext⟩)

theorem readBody_eq_body_iff :
    readBody true length s = .body body rest ↔
      length = some body.length ∧ body.length ≤ maxLength ∧ s = body ++ rest := by
  constructor
  · intro h
    cases length with
    | none => cases h
    | some n =>
        rw [readBody] at h
        split at h
        · cases h
        · next hle =>
            split at h
            · next hn =>
                obtain ⟨rfl, rfl⟩ := Step.body.inj h
                rw [List.length_take_of_le hn]
                exact ⟨rfl, Nat.not_lt.mp hle, (List.take_append_drop n s).symm⟩
            · simp at h
  · rintro ⟨rfl, hle, rfl⟩
    rw [readBody]
    simp [Nat.not_lt.mpr hle]

theorem readBody_cases (length : Option Nat) (s : List UInt8) :
    (∃ body rest, readBody true length s = .body body rest) ∨
      ∃ fault, readBody true length s = .broken fault := by
  cases length with
  | none => exact .inr ⟨.missingLength, rfl⟩
  | some n =>
      rw [readBody]
      split
      · exact .inr ⟨.tooLong n, rfl⟩
      · split
        · exact .inl ⟨_, _, rfl⟩
        · exact .inr ⟨.endedInBody, rfl⟩

/-! ## Frames -/

/-- What is left of a frame behind its first header: more headers, a blank line, and a body as
long as the headers say, those before included. -/
def Closes (length : Option Nat) (s body rest : List UInt8) : Prop :=
  ∃ headers last, s = headers.flatten ++ (last ++ (body ++ rest)) ∧
    AreLines (headers ++ [last]) (body ++ rest) ∧ GivesAfter length headers body.length ∧
    IsBlank last ∧ body.length ≤ maxLength

theorem Closes.blank (hline : IsLine line (body ++ rest)) (hblank : IsBlank line)
    (hle : body.length ≤ maxLength) : Closes (some body.length) (line ++ (body ++ rest)) body rest :=
  ⟨[], line, by simp, ⟨by simpa using hline, trivial⟩, givesAfter_nil.mpr rfl, hblank, hle⟩

theorem Closes.cons {length' : Option Nat} (h : Closes length' s body rest) (hline : IsLine line s)
    (hgives : ∀ headers n, GivesAfter length' headers n → GivesAfter length (line :: headers) n) :
    Closes length (line ++ s) body rest := by
  obtain ⟨headers, last, rfl, hlines, hafter, hlast⟩ := h
  refine ⟨line :: headers, last, by simp, ⟨?_, hlines⟩, hgives _ _ hafter, hlast⟩
  simpa using hline

theorem Closes.cons_length (h : Closes (some n) s body rest) (hline : IsLine line s)
    (htells : Tells line (.length n)) (length : Option Nat) :
    Closes length (line ++ s) body rest :=
  h.cons hline fun _ _ hafter => givesAfter_cons.mpr (.inl ⟨n, htells, hafter⟩)

theorem Closes.cons_other (h : Closes length s body rest) (hline : IsLine line s)
    (htells : Tells line .other) : Closes length (line ++ s) body rest :=
  h.cons hline fun _ _ hafter => givesAfter_cons.mpr (.inr ⟨htells, hafter⟩)

/-- A frame without blank lines before it. -/
theorem Closes.isFrame (h : Closes none s body rest) : IsFrame s body rest := by
  obtain ⟨headers, last, hs, hlines, hafter, hlast⟩ := h
  exact ⟨[], headers, last, hs, hlines, by simp, givesAfter_none.mp hafter, hlast⟩

/-- Behind the first header, a body is found only where headers, a blank line and a body
follow. -/
theorem closes_of_readHeaders (h : readHeaders true true length s = .body body rest) :
    Closes length s body rest := by
  induction s using (measure List.length).wf.induction generalizing length with
  | _ s ih =>
      rcases readHeaders_cases true length s with
        ⟨-, hnil⟩ | ⟨fault, hbroken⟩ | ⟨line, next, rfl, hline, hshort, hcases⟩
      · rw [hnil] at h
        cases h
      · rw [hbroken] at h
        cases h
      rcases hcases with ⟨hblank, hnext⟩ | ⟨n, hn, hnext⟩ | ⟨hother, hnext⟩
      · rw [hnext, if_pos rfl, readBody_eq_body_iff] at h
        obtain ⟨rfl, hle, rfl⟩ := h
        exact .blank hline hblank hle
      · exact (ih next hshort (hnext ▸ h)).cons_length hline hn length
      · exact (ih next hshort (hnext ▸ h)).cons_other hline hother

theorem readHeaders_of_blanks (hlines : AreLines blanks rest) (hblanks : ∀ line ∈ blanks, IsBlank line) :
    readHeaders true false length (blanks.flatten ++ rest) = readHeaders true false length rest := by
  induction blanks with
  | nil => rfl
  | cons line blanks ih =>
      rw [List.forall_mem_cons] at hblanks
      rw [List.flatten_cons, List.append_assoc, readHeaders_append hlines.1 (.blank hblanks.1)]
      exact ih hlines.2 hblanks.2

theorem readHeaders_of_givesAfter (hlines : AreLines headers rest)
    (hafter : GivesAfter length headers n) :
    readHeaders true true length (headers.flatten ++ rest) =
      readHeaders true true (some n) rest := by
  induction headers generalizing length with
  | nil => rw [givesAfter_nil.mp hafter, List.flatten_nil, List.nil_append]
  | cons line headers ih =>
      rw [List.flatten_cons, List.append_assoc]
      rcases givesAfter_cons.mp hafter with ⟨m, hm, hafter⟩ | ⟨hother, hafter⟩
      · rw [readHeaders_append hlines.1 hm]
        exact ih hlines.2 hafter
      · rw [readHeaders_append hlines.1 hother]
        exact ih hlines.2 hafter

/-- A blank line before a frame makes no difference. -/
theorem IsFrame.append (h : IsFrame s body rest) (hline : IsLine line s) (hblank : IsBlank line) :
    IsFrame (line ++ s) body rest := by
  obtain ⟨blanks, headers, last, rfl, hlines, hblanks, hframe⟩ := h
  refine ⟨line :: blanks, headers, last, by simp, ⟨?_, hlines⟩,
    List.forall_mem_cons.mpr ⟨hblank, hblanks⟩, hframe⟩
  simpa using hline

theorem isFrame_of_readHeaders (h : readHeaders true false none s = .body body rest) :
    IsFrame s body rest := by
  induction s using (measure List.length).wf.induction with
  | _ s ih =>
      rcases readHeaders_cases false none s with
        ⟨-, hnil⟩ | ⟨fault, hbroken⟩ | ⟨line, next, rfl, hline, hshort, hcases⟩
      · rw [hnil] at h
        cases h
      · rw [hbroken] at h
        cases h
      rcases hcases with ⟨hblank, hnext⟩ | ⟨n, hn, hnext⟩ | ⟨hother, hnext⟩
      · rw [hnext, if_neg Bool.false_ne_true] at h
        exact (ih next hshort h).append hline hblank
      · exact ((closes_of_readHeaders (hnext ▸ h)).cons_length hline hn none).isFrame
      · exact ((closes_of_readHeaders (hnext ▸ h)).cons_other hline hother).isFrame

theorem IsFrame.read_eq (h : IsFrame s body rest) : read true s = .body body rest := by
  obtain ⟨blanks, headers, last, rfl, hlines, hblanks, hgives, hlast, hle⟩ := h
  rw [areLines_append] at hlines
  obtain ⟨hbefore, hlines⟩ := hlines
  rw [List.flatten_append, List.flatten_singleton, List.append_assoc] at hbefore
  rw [read, readHeaders_of_blanks hbefore hblanks]
  -- The first header opens the block, and the others are read behind it.
  cases headers with
  | nil => exact absurd hgives not_gives_nil
  | cons first headers =>
      obtain ⟨⟨hfirst, hheaders⟩, hclose⟩ := areLines_concat.mp hlines
      have hrest : readHeaders true true (some body.length) (last ++ (body ++ rest)) =
          .body body rest := by
        rw [readHeaders_append hclose (.blank hlast)]
        exact readBody_eq_body_iff.mpr ⟨rfl, hle, rfl⟩
      rw [List.flatten_cons, List.append_assoc]
      rcases givesAfter_cons.mp (givesAfter_none.mpr hgives) with ⟨m, hm, hafter⟩ | ⟨hother, hafter⟩
      · rw [readHeaders_append hfirst hm]
        exact (readHeaders_of_givesAfter hheaders hafter).trans hrest
      · rw [readHeaders_append hfirst hother]
        exact (readHeaders_of_givesAfter hheaders hafter).trans hrest

/-- A body is found exactly where the stream starts with a frame. -/
theorem read_eq_body_iff : read true s = .body body rest ↔ IsFrame s body rest :=
  ⟨isFrame_of_readHeaders, IsFrame.read_eq⟩

/-! ## The end of a stream -/

/-- Behind a header the stream cannot end as it should. -/
theorem readHeaders_seen_cases (length : Option Nat) (s : List UInt8) :
    (∃ body rest, readHeaders true true length s = .body body rest) ∨
      ∃ fault, readHeaders true true length s = .broken fault := by
  induction s using (measure List.length).wf.induction generalizing length with
  | _ s ih =>
      rcases readHeaders_cases true length s with
        ⟨-, hnil⟩ | hbroken | ⟨line, next, rfl, -, hshort, hcases⟩
      · exact .inr ⟨.endedInHeader, hnil⟩
      · exact .inr hbroken
      rcases hcases with ⟨-, hnext⟩ | ⟨n, -, hnext⟩ | ⟨-, hnext⟩
      · rw [hnext]
        exact readBody_cases length next
      · rw [hnext]
        exact ih next hshort (some n)
      · rw [hnext]
        exact ih next hshort length

/-- A stream gives a body, or is broken, or ends behind blank lines. -/
theorem read_cases (s : List UInt8) :
    (∃ body rest, read true s = .body body rest) ∨ (∃ fault, read true s = .broken fault) ∨
      (read true s = .ended ∧ IsSilent s) := by
  simp only [read]
  induction s using (measure List.length).wf.induction with
  | _ s ih =>
      rcases readHeaders_cases false none s with
        ⟨rfl, hnil⟩ | hbroken | ⟨line, next, rfl, hline, hshort, hcases⟩
      · exact .inr (.inr ⟨hnil, [], rfl, trivial, by simp⟩)
      · exact .inr (.inl hbroken)
      rcases hcases with ⟨hblank, hnext⟩ | ⟨n, -, hnext⟩ | ⟨-, hnext⟩
      · rw [hnext]
        refine (ih next hshort).imp_right (Or.imp_right ?_)
        rintro ⟨hended, blanks, rfl, hlines, hblanks⟩
        refine ⟨hended, line :: blanks, by simp, ⟨?_, hlines⟩,
          List.forall_mem_cons.mpr ⟨hblank, hblanks⟩⟩
        simpa using hline
      · rw [hnext]
        exact (readHeaders_seen_cases _ next).imp_right .inl
      · rw [hnext]
        exact (readHeaders_seen_cases _ next).imp_right .inl

/-- The stream ends as it should exactly where only blank lines are left. -/
theorem read_eq_ended_iff : read true s = .ended ↔ IsSilent s := by
  constructor
  · intro h
    rcases read_cases s with ⟨body, rest, hbody⟩ | ⟨fault, hbroken⟩ | ⟨-, hsilent⟩
    · rw [hbody] at h
      cases h
    · rw [hbroken] at h
      cases h
    · exact hsilent
  · rintro ⟨blanks, rfl, hlines, hblanks⟩
    have hread : readHeaders true false none (blanks.flatten ++ []) =
        readHeaders true false none [] := readHeaders_of_blanks hlines hblanks
    rw [List.append_nil, readHeaders_nil] at hread
    exact hread

/-- In all other cases the stream is broken. -/
theorem exists_read_eq_broken_iff :
    (∃ fault, read true s = .broken fault) ↔
      (¬ ∃ body rest, IsFrame s body rest) ∧ ¬ IsSilent s := by
  simp only [← read_eq_body_iff, ← read_eq_ended_iff]
  constructor
  · rintro ⟨fault, h⟩
    rw [h]
    simp
  · rintro ⟨hbody, hended⟩
    rcases read_cases s with hread | hread | ⟨hread, -⟩
    · exact absurd hread hbody
    · exact hread
    · exact absurd hread hended

/-! ## One frame after another -/

/-- Reading a stream frame by frame gives some bodies, up to its end or to a fault. -/
inductive Reads : List UInt8 → List (List UInt8) → Option Fault → Prop where
  | ended {s : List UInt8} : read true s = .ended → Reads s [] none
  | broken {s : List UInt8} {fault : Fault} : read true s = .broken fault → Reads s [] (some fault)
  | body {s body rest : List UInt8} {bodies : List (List UInt8)} {fault : Option Fault} :
      read true s = .body body rest → Reads rest bodies fault → Reads s (body :: bodies) fault

theorem readAll_of_ended (h : read true s = .ended) : readAll s = ([], none) := by
  rw [readAll]
  split <;> simp_all

theorem reads_readAll (s : List UInt8) : Reads s (readAll s).1 (readAll s).2 := by
  induction s using (measure List.length).wf.induction with
  | _ s ih =>
      rcases read_cases s with ⟨body, rest, h⟩ | ⟨fault, h⟩ | ⟨h, -⟩
      · rw [readAll_of_body h]
        exact .body h (ih rest (length_of_read h))
      · rw [readAll_of_broken h]
        exact .broken h
      · rw [readAll_of_ended h]
        exact .ended h

/-- Reading ends on every stream, and in one way. -/
theorem reads_iff {bodies : List (List UInt8)} {fault : Option Fault} :
    Reads s bodies fault ↔ readAll s = (bodies, fault) := by
  constructor
  · intro h
    induction h with
    | ended h => exact readAll_of_ended h
    | broken h => exact readAll_of_broken h
    | body h _ ih => rw [readAll_of_body h, ih]
  · intro h
    have hreads := reads_readAll s
    rwa [h] at hreads

/-! ## Main statement -/

/-- A stream gives a body exactly where it starts with a frame, and reading goes on behind the
frame. It ends as it should where there is nothing but blank lines, and is broken in all other
cases. A frame takes at least one octet, so reading one frame after another ends on every
stream, and in one way. -/
theorem read_accepts_frames (s : List UInt8) :
    (∀ body rest, read true s = .body body rest ↔ IsFrame s body rest) ∧
    (read true s = .ended ↔ IsSilent s) ∧
    ((∃ fault, read true s = .broken fault) ↔
      (¬ ∃ body rest, IsFrame s body rest) ∧ ¬ IsSilent s) ∧
    (∀ body rest, IsFrame s body rest → rest.length < s.length) ∧
    ∀ bodies fault, Reads s bodies fault ↔ readAll s = (bodies, fault) :=
  ⟨fun _ _ => read_eq_body_iff, read_eq_ended_iff, exists_read_eq_broken_iff,
    fun _ _ h => length_of_read (read_eq_body_iff.mpr h), fun _ _ => reads_iff⟩

/-- The line of a header, with its line end in the value. -/
def headerLine (name value : String) : List UInt8 :=
  Utf8.encode (String.ofList (name.toList ++ ':' :: value.toList))

def mixedHeaders : List (List UInt8) :=
  [headerLine "X-Note" " é\r\n", headerLine "content-LENGTH " " +9\n",
    headerLine "Content-Length" "\t02\r\n"]

/-- Headers of several spellings, and a length that is given twice. -/
theorem gives_mixedHeaders : Gives mixedHeaders 2 := by
  have hnote : Tells (headerLine "X-Note" " é\r\n") .other :=
    .other ⟨by decide, rfl⟩ (by decide +kernel)
  have hfirst : Tells (headerLine "content-LENGTH " " +9\n") (.length 9) :=
    .length ⟨by decide, rfl⟩ (by decide +kernel) (Text.number?_eq_some_iff.mp (by decide +kernel))
  have hlast : Tells (headerLine "Content-Length" "\t02\r\n") (.length 2) :=
    .length ⟨by decide, rfl⟩ (by decide +kernel) (Text.number?_eq_some_iff.mp (by decide +kernel))
  refine ⟨[_, _], _, [], rfl, ?_, hlast, by simp⟩
  simpa using ⟨.inl hnote, .inr ⟨9, hfirst⟩⟩

/-- A frame with a body of two octets, between two blank lines. The second one is at the end of
the stream and has no line feed. -/
def mixedStream : List UInt8 :=
  0x0A :: (mixedHeaders.flatten ++ [0x0D, 0x0A, 0x6F, 0x6B, 0x0D])

theorem isFrame_mixedStream : IsFrame mixedStream [0x6F, 0x6B] [0x0D] := by
  have feed (line rest : List UInt8) (h : line.getLast? = some 0x0A)
      (hfeed : 0x0A ∉ line.dropLast) : IsLine line rest :=
    .inl ⟨line.dropLast, hfeed, (List.dropLast_append_getLast? 0x0A h).symm⟩
  refine ⟨[[0x0A]], mixedHeaders, [0x0D, 0x0A], rfl, ⟨?_, ?_, ?_, ?_, ?_, trivial⟩, ?_,
    gives_mixedHeaders, ⟨1, .inr rfl⟩, by decide⟩
  · exact feed _ _ (by decide +kernel) (by decide +kernel)
  · exact feed _ _ (by decide +kernel) (by decide +kernel)
  · exact feed _ _ (by decide +kernel) (by decide +kernel)
  · exact feed _ _ (by decide +kernel) (by decide +kernel)
  · exact feed _ _ (by decide +kernel) (by decide +kernel)
  · simpa using ⟨0, .inr rfl⟩

theorem isSilent_return : IsSilent [0x0D] :=
  ⟨[[0x0D]], rfl, ⟨.inr ⟨by decide, by decide, rfl⟩, trivial⟩, by simpa using ⟨1, .inl rfl⟩⟩

/-- The last length counts, and behind the frame the stream is at its end. -/
theorem read_accepts_frames_mixedStream :
    IsFrame mixedStream [0x6F, 0x6B] [0x0D] ∧
      read true mixedStream = .body [0x6F, 0x6B] [0x0D] ∧
      [0x0D].length < mixedStream.length ∧ IsSilent [0x0D] ∧ read true [0x0D] = .ended ∧
      readAll mixedStream = ([[0x6F, 0x6B]], none) := by
  obtain ⟨hbody, -, -, hshort, hreads⟩ := read_accepts_frames mixedStream
  obtain ⟨-, hended, -, -, -⟩ := read_accepts_frames [0x0D]
  have hread := (hbody _ _).mpr isFrame_mixedStream
  have hsilent := hended.mpr isSilent_return
  exact ⟨isFrame_mixedStream, hread, hshort _ _ isFrame_mixedStream, isSilent_return, hsilent,
    (hreads _ _).mp (.body hread (.ended hsilent))⟩

end Frame

end SourceAtlas

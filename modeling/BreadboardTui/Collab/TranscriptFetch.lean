import BreadboardTui.Lib.Runs
import BreadboardTui.Lib.Utf8

/-!
# Reading a transcript in parts

`#handleFetchTranscript` of the host answers a guest that asks for a transcript from a byte on; the
guest asks again from the `newSize` of the answer.

* The file is what will have been written to it at the end; a fetch sees a number of its bytes, at
  least as many as the fetch before, and a read gives some of those that it wants.
* `toUtf8` is `toString("utf-8")`, with the reading of bytes that are no UTF-8 as a parameter.
-/

namespace BreadboardTui.Collab

open List Utf8 Runs

def TRANSCRIPT_READ_CAP : ℕ := 4 * 1024 * 1024

def TRANSCRIPT_ENTRY_TOO_LARGE_ERROR : String :=
  "transcript entry exceeds transcript fetch cap (4194304 bytes)"

structure TranscriptReply where
  text : Text
  newSize : ℕ
  error : Option String
  deriving DecidableEq, Repr

/-- What a fetch meets: no session file, an exception, or a file of a size of which so many bytes are
read. -/
inductive TranscriptFetch where
  | noFile
  | throws (message : String)
  | reads (size bytesRead : ℕ)
  deriving DecidableEq, Repr

/-- A string of valid bytes keeps its byte order mark. -/
def toUtf8 (invalid : Bytes → Text) (bytes : Bytes) : Text :=
  match bytes.toByteArray.utf8Decode? with
  | some chars => chars.toList
  | none => invalid bytes

/-- The slice up to its last newline. -/
def throughLastNewline (slice : Bytes) : Bytes :=
  slice.take (slice.length - (slice.reverse.takeWhile (· != 0x0a)).length)

def handleFetchTranscript (invalid : Bytes → Text) (bytes : Bytes) (fromByte : ℕ) :
    TranscriptFetch → TranscriptReply
  | .noFile => ⟨[], fromByte, some "no transcript available"⟩
  | .throws message => ⟨[], fromByte, some message⟩
  | .reads size bytesRead =>
    if size ≤ fromByte then ⟨[], size, none⟩
    else
      let slice := (bytes.drop fromByte).take bytesRead
      if size ≤ fromByte + bytesRead then ⟨toUtf8 invalid slice, size, none⟩
      else if 0x0a ∈ slice then
        ⟨toUtf8 invalid (throughLastNewline slice), fromByte + (throughLastNewline slice).length, none⟩
      else ⟨[], fromByte, some TRANSCRIPT_ENTRY_TOO_LARGE_ERROR⟩

/-! ### Runs of fetches -/

/-- What the guest has: the texts, the last `newSize`, and whether a reply was an error. Beside it
the largest size that was seen. -/
structure TranscriptView where
  texts : Text := []
  newSize : ℕ := 0
  failed : Bool := false
  observed : ℕ := 0
  deriving DecidableEq, Repr

namespace TranscriptView

variable (invalid : Bytes → Text) (content : Text)

def receive (view : TranscriptView) (reply : TranscriptReply) (observed : ℕ) : TranscriptView :=
  ⟨view.texts ++ reply.text, reply.newSize, reply.error.isSome, observed⟩

/-- The next fetch. The file only grows, and a read gives at most what is asked for. -/
def step (view : TranscriptView) (fetch : TranscriptFetch) : Option TranscriptView :=
  if view.failed then none
  else
    let reply := handleFetchTranscript invalid (encode content) view.newSize fetch
    match fetch with
    | .reads size bytesRead =>
      if view.observed ≤ size ∧ size ≤ (encode content).length ∧
          bytesRead ≤ min (size - view.newSize) TRANSCRIPT_READ_CAP then
        some (view.receive reply size)
      else none
    | _ => some (view.receive reply view.observed)

/-- The bytes of the first characters. -/
def isBoundary (size : ℕ) : Bool := content.inits.any fun text => (encode text).length == size

/-- A fetch that reaches the size it sees sees no half of a character. -/
def wholeAtEnd (view : TranscriptView) : TranscriptFetch → Bool
  | .reads size bytesRead =>
    !decide (view.newSize < size ∧ size ≤ view.newSize + bytesRead) || isBoundary content size
  | _ => true

/-- The texts are the characters of the first `newSize` bytes. -/
def Reassembled (view : TranscriptView) : Prop :=
  ∃ rest, content = view.texts ++ rest ∧ (encode view.texts).length = view.newSize

variable {invalid content} {view view' : TranscriptView} {fetch : TranscriptFetch}

theorem toUtf8_encode (text : Text) : toUtf8 invalid (encode text) = text := by
  have hdecode : (encode text).toByteArray.utf8Decode? = some text.toArray :=
    List.utf8Decode?_utf8Encode
  rw [toUtf8, hdecode]

/-- The bytes behind a beginning, up to a boundary, are those of the characters between. -/
theorem exists_between {before rest : Text} (hcontent : content = before ++ rest) {size : ℕ}
    (hsize : isBoundary content size = true) (hle : (encode before).length ≤ size) :
    ∃ between after, content = before ++ between ++ after ∧
      (encode (before ++ between)).length = size := by
  obtain ⟨text, hmem, hlength⟩ := any_eq_true.mp hsize
  obtain ⟨after, htext⟩ := (mem_inits text content).mp hmem
  rw [beq_iff_eq] at hlength
  rcases append_eq_append_iff.mp (htext.trans hcontent) with ⟨z, hbefore, hafter⟩ | ⟨z, rfl, -⟩
  · rw [hbefore, encode_append, length_append] at hle
    have hz : encode z = [] := length_eq_zero_iff.mp (by omega)
    refine ⟨[], rest, by rw [append_nil, hcontent], ?_⟩
    rw [append_nil, hbefore, encode_append, hz, append_nil, hlength]
  · exact ⟨z, after, htext.symm, hlength⟩

theorem throughLastNewline_eq {slice : Bytes} (h : 0x0a ∈ slice) :
    ∃ line tail, slice = line ++ 0x0a :: tail ∧ throughLastNewline slice = line ++ [0x0a] := by
  obtain ⟨tail, line, hslice, htail⟩ := eq_append_cons_of_mem (mem_reverse.mpr h)
  have hslice' : slice = line.reverse ++ 0x0a :: tail.reverse := by
    rw [← reverse_reverse slice, hslice, reverse_append, reverse_cons, append_assoc]
    rfl
  refine ⟨line.reverse, tail.reverse, hslice', ?_⟩
  have htake : slice.reverse.takeWhile (· != 0x0a) = tail := by
    rw [hslice, takeWhile_append_of_pos fun b hb => bne_iff_ne.mpr fun heq => ?_]
    · simp
    subst heq
    exact htail hb
  have hlength : slice.length - tail.length = line.reverse.length + 1 := by
    rw [hslice', length_append, length_cons, length_reverse, length_reverse]
    omega
  rw [throughLastNewline, htake, hlength, hslice', append_cons,
    take_left' (by rw [length_append]; rfl)]

/-- What a fetch keeps. -/
structure Kept (content : Text) (view : TranscriptView) : Prop where
  reassembled : view.Reassembled content
  observed : view.newSize ≤ view.observed

/-- The reply to a fetch that reads: nothing lies behind, or the next characters, or the error. -/
theorem reply_cases (h : Kept content view) {size bytesRead : ℕ}
    (hwhole : view.wholeAtEnd content (.reads size bytesRead) = true) (hsize : view.observed ≤ size)
    (hread : bytesRead ≤ size - view.newSize) {reply : TranscriptReply}
    (hreply : handleFetchTranscript invalid (encode content) view.newSize (.reads size bytesRead) =
      reply) :
    (size = view.newSize ∧ reply = ⟨[], size, none⟩) ∨
      (∃ between after, content = view.texts ++ between ++ after ∧ between ≠ [] ∧
        view.newSize + (encode between).length ≤ size ∧
        reply = ⟨between, view.newSize + (encode between).length, none⟩) ∨
      reply = ⟨[], view.newSize, some TRANSCRIPT_ENTRY_TOO_LARGE_ERROR⟩ := by
  obtain ⟨⟨rest, hcontent, hlength⟩, hobserved⟩ := h
  have hdrop : (encode content).drop view.newSize = encode rest := by
    rw [hcontent, encode_append, drop_left' hlength]
  rw [handleFetchTranscript, hdrop] at hreply
  split at hreply
  · next hle => exact .inl ⟨by omega, hreply.symm⟩
  next hlt =>
  dsimp only at hreply
  split at hreply
  · next hend =>
    have hboundary : isBoundary content size = true := by
      rw [wholeAtEnd, decide_eq_true ⟨by omega, hend⟩] at hwhole
      exact hwhole
    obtain ⟨between, after, hbetween, htotal⟩ := exists_between hcontent hboundary (by omega)
    rw [encode_append, length_append, hlength] at htotal
    have hrest : rest = between ++ after := by
      rw [hcontent, append_assoc] at hbetween
      exact append_cancel_left hbetween
    rw [hrest, encode_append, take_left' (by omega), toUtf8_encode] at hreply
    refine .inr (.inl ⟨between, after, hbetween, ?_, by omega, by rw [htotal, hreply]⟩)
    rintro rfl
    rw [encode_nil, length_nil] at htotal
    omega
  split at hreply
  · next hmem =>
    obtain ⟨line, tail, hslice, hthrough⟩ := throughLastNewline_eq hmem
    have hrest : encode rest = line ++ ascii '\n' :: (tail ++ (encode rest).drop bytesRead) := by
      conv_lhs => rw [← take_append_drop bytesRead (encode rest), hslice, append_assoc]
      rfl
    obtain ⟨before, after, rfl, rfl, -⟩ := encode_eq_append_cons (by decide) hrest
    have hline : encode before ++ [0x0a] = encode (before ++ ['\n']) := by
      rw [encode_append]
      rfl
    have hslength := congrArg length hslice
    rw [length_take, length_append, length_cons] at hslength
    rw [hthrough, hline, toUtf8_encode] at hreply
    refine .inr (.inl ⟨before ++ ['\n'], after, ?_, append_ne_nil_of_right_ne_nil _ (cons_ne_nil _ _),
      ?_, hreply.symm⟩)
    · rw [hcontent, append_assoc, append_assoc, singleton_append]
    rw [← hline, length_append, length_singleton]
    omega
  · exact .inr (.inr hreply.symm)

theorem Kept.step (h : Kept content view) (hwhole : view.wholeAtEnd content fetch = true)
    (hstep : view.step invalid content fetch = some view') :
    Kept content view' ∧ view.newSize ≤ view'.newSize := by
  rw [TranscriptView.step] at hstep
  have hkeep (message : String) (observed : ℕ) (hle : view.observed ≤ observed) :
      Kept content (view.receive ⟨[], view.newSize, some message⟩ observed) := by
    obtain ⟨rest, hcontent, hlength⟩ := h.reassembled
    refine ⟨⟨rest, ?_, ?_⟩, Nat.le_trans h.observed hle⟩
    · rw [receive, append_nil, hcontent]
    · rw [receive, append_nil, hlength]
  split at hstep
  · cases hstep
  cases fetch with
  | noFile =>
    injection hstep with hstep
    subst hstep
    exact ⟨hkeep _ _ (Nat.le_refl _), Nat.le_refl _⟩
  | throws =>
    injection hstep with hstep
    subst hstep
    exact ⟨hkeep _ _ (Nat.le_refl _), Nat.le_refl _⟩
  | reads =>
    dsimp only at hstep
    split at hstep
    · next hfile =>
      injection hstep with hstep
      subst hstep
      obtain ⟨rest, hcontent, hlength⟩ := h.reassembled
      rcases reply_cases h hwhole hfile.1 (by omega)
          (rfl : handleFetchTranscript invalid _ _ _ = _) with
        ⟨hsize, hreply⟩ | ⟨between, after, hbetween, -, hle, hreply⟩ | hreply
      · rw [hreply]
        refine ⟨⟨⟨rest, ?_, ?_⟩, Nat.le_refl _⟩, Nat.le_of_eq hsize.symm⟩
        · rw [receive, append_nil, hcontent]
        · rw [receive, append_nil, hlength, hsize]
      · rw [hreply]
        refine ⟨⟨⟨after, hbetween, ?_⟩, hle⟩, Nat.le_add_right ..⟩
        rw [receive, encode_append, length_append, hlength]
      rw [hreply]
      exact ⟨hkeep _ _ hfile.1, Nat.le_refl _⟩
    · cases hstep

/-! ### The reassembled transcript -/

/-- In a run in which no fetch that reaches the size it sees cuts a character, the texts are those
of the first `newSize` bytes, which were all seen, `newSize` never goes back, and an empty text
without an error means that there is no more. -/
theorem fetches_reassemble
    (h : Reached (guarded (wholeAtEnd content) (step invalid content)) {} view) :
    encode view.texts = (encode content).take view.newSize ∧ view.newSize ≤ view.observed ∧
      ∀ fetch view', view.wholeAtEnd content fetch = true →
        view.step invalid content fetch = some view' → view.newSize ≤ view'.newSize ∧
        ∀ size bytesRead, fetch = .reads size bytesRead → view'.texts = view.texts →
          view'.failed = false → size ≤ view.newSize := by
  have hkept : Kept content view :=
    h.invariant (Kept content) ⟨⟨content, rfl, rfl⟩, Nat.le_refl _⟩ fun view fetch view' hview hs =>
      (hview.step (guarded_eq_some.mp hs).1 (guarded_eq_some.mp hs).2).1
  obtain ⟨rest, hcontent, hlength⟩ := hkept.reassembled
  refine ⟨?_, hkept.observed, fun fetch view' hwhole hstep => ⟨(hkept.step hwhole hstep).2, ?_⟩⟩
  · conv_rhs => rw [hcontent, encode_append, take_left' hlength]
  rintro size bytesRead rfl htexts hfailed
  rw [step] at hstep
  split at hstep
  · cases hstep
  dsimp only at hstep
  split at hstep
  · next hfile =>
    injection hstep with hstep
    subst hstep
    rcases reply_cases hkept hwhole hfile.1 (by omega)
        (rfl : handleFetchTranscript invalid _ _ _ = _) with
      ⟨hsize, -⟩ | ⟨between, after, -, hne, -, hreply⟩ | hreply
    · exact Nat.le_of_eq hsize
    · rw [hreply, receive] at htexts
      exact absurd (append_right_eq_self.mp htexts) hne
    rw [hreply] at hfailed
    cases hfailed
  · cases hstep

/-- The file holds one character of two bytes, of which the first fetch sees one. -/
theorem fetches_split_character :
    ¬ ∀ (invalid : Bytes → Text) (content : Text) (view : TranscriptView),
      Reached (step invalid content) {} view → view.failed = false →
        encode view.texts = (encode content).take view.newSize := by
  intro hall
  have hrun : Reached (step (fun _ => [Char.ofNat 0xFFFD]) [Char.ofNat 0xE9]) {} _ :=
    .of_exec .start (show exec (step (fun _ => [Char.ofNat 0xFFFD]) [Char.ofNat 0xE9]) {}
      [.reads 1 1, .reads 2 1] = some _ from rfl)
  have htexts := hall _ _ _ hrun rfl
  revert htexts
  decide

theorem fetches_reassemble_twoLines :
    Reached (guarded (wholeAtEnd ['a', '\n', 'b']) (step (fun _ => []) ['a', '\n', 'b'])) {}
      ⟨['a', '\n', 'b'], 3, false, 3⟩ ∧
    encode ['a', '\n', 'b'] = (encode ['a', '\n', 'b']).take 3 := by
  have hrun : Reached (guarded (wholeAtEnd ['a', '\n', 'b']) (step (fun _ => []) ['a', '\n', 'b']))
      {} ⟨['a', '\n', 'b'], 3, false, 3⟩ :=
    .of_exec .start (show exec (guarded (wholeAtEnd ['a', '\n', 'b'])
      (step (fun _ => []) ['a', '\n', 'b'])) {} [.reads 3 2, .reads 3 1] = some _ from rfl)
  exact ⟨hrun, (fetches_reassemble hrun).1⟩

end TranscriptView

end BreadboardTui.Collab

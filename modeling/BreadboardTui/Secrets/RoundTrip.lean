import BreadboardTui.Secrets.Obfuscator

/-!
# Secrets and back

Turning the tokens of an obfuscated text back gives the text, if every token is read where it was
put. A token is misread behind an open head: text that looks like a token whose closing delimiter
is missing takes that of the next token's beginning.

The obfuscated text is described as a tiling of the text: pieces of it as they are, and between
them secrets, each of which the obfuscator shows as a token.
-/

namespace BreadboardTui.Secrets

open List

open Hashline (Units units)

/-- The text ends in a token without its closing delimiter, or with half of it. -/
def OpenHead (text : Units) : Prop :=
  ∃ front body, validBody body = true ∧
    (text = front ++ 36 :: 36 :: body ∨ text = front ++ 36 :: 36 :: (body ++ [36]))

variable {text : Units} {text' : Units}

theorem OpenHead.of_suffix (h : OpenHead text') (hsuffix : text' <:+ text) : OpenHead text := by
  obtain ⟨start, rfl⟩ := hsuffix
  obtain ⟨front, body, hvalid, rfl | rfl⟩ := h
  · exact ⟨start ++ front, body, hvalid, .inl (append_assoc ..).symm⟩
  · exact ⟨start ++ front, body, hvalid, .inr (append_assoc ..).symm⟩

variable {body : Units}

theorem not_mem_of_validBody (h : validBody body = true) : 36 ∉ body := by
  intro hmem
  rcases code_of_validBody h hmem with hbase | hcode | hcode
  · exact absurd hbase (by decide)
  · omega
  · omega

theorem validBody_ne_nil (h : validBody body = true) : body ≠ [] := by
  rintro rfl
  exact absurd h (by decide)

/-- A text has this property of each token in it. -/
def TokensIn (p : Units → Prop) (text : Units) : Prop :=
  ∀ body, validBody body = true → token body <:+: text → p body

variable {p : Units → Prop}

theorem TokensIn.of_infix (h : TokensIn p text)
    (hin : text' <:+: text) : TokensIn p text' := fun body hvalid htoken =>
  h body hvalid (htoken.trans hin)

/-- A text without two dollars in a row has no token in it. -/
theorem TokensIn.of_notInfix (h : ¬ [36, 36] <:+: text) : TokensIn p text := fun body _ htoken =>
  absurd (List.IsInfix.trans (List.IsPrefix.isInfix ⟨body ++ [36, 36], rfl⟩) htoken) h

theorem OpenHead.infix (h : OpenHead text) : [36, 36] <:+: text := by
  obtain ⟨front, body, -, rfl | rfl⟩ := h
  · exact ⟨front, body, by simp⟩
  · exact ⟨front, body ++ [36], by simp⟩

/-! ### Tokens in front of a tile -/

variable {piece rest : Units} {after : Units}

/-- A token that begins in a piece, in front of a tile, ends in the piece, unless the piece ends in
an open head. -/
theorem matchPlaceholder_tile {found : Units} (hne : piece ≠ []) (hhead : ¬ OpenHead piece)
    (h : matchPlaceholder (piece ++ (token body ++ rest)) = some (found, after)) :
    ∃ piece', piece = token found ++ piece' ∧ after = piece' ++ (token body ++ rest) := by
  obtain ⟨heq, hvalid, hdollar⟩ := eq_of_matchPlaceholder h
  rcases piece with _ | ⟨first, _ | ⟨second, piece⟩⟩
  · exact absurd rfl hne
  · -- the token would begin with three dollars
    obtain ⟨more, hmore⟩ : ∃ more, found ++ 36 :: 36 :: after = 36 :: more := by
      simp only [token, cons_append, nil_append, List.cons.injEq, append_assoc]
        at heq
      exact ⟨_, heq.2.2.symm⟩
    obtain ⟨code, found', hfound⟩ := exists_cons_of_ne_nil (validBody_ne_nil hvalid)
    rw [hfound, cons_append, List.cons.injEq] at hmore
    exact absurd (hfound ▸ hmore.1 ▸ mem_cons_self) hdollar
  have hparts : first = 36 ∧ second = 36 ∧
      piece ++ (token body ++ rest) = found ++ 36 :: 36 :: after := by
    simpa [token] using heq
  obtain ⟨rfl, rfl, hrest⟩ := hparts
  -- either the body is longer than what is left of the piece, or it ends in it
  rcases append_eq_append_iff.mp hrest with ⟨more, hmore, htile⟩ | ⟨more, hmore, htile⟩
  · -- the body goes on into the tile, which begins with a dollar
    cases more with
    | nil =>
      rw [append_nil] at hmore
      exact absurd ⟨[], found, hvalid, .inl (by rw [← hmore]; rfl)⟩ hhead
    | cons code =>
      have hcode : code = 36 := (List.cons.inj htile).1.symm
      refine absurd ?_ hdollar
      rw [hmore, hcode]
      exact mem_append_right _ mem_cons_self
  rcases more with _ | ⟨code, _ | ⟨code', piece'⟩⟩
  · rw [append_nil] at hmore
    exact absurd ⟨[], found, hvalid, .inl (by rw [hmore]; rfl)⟩ hhead
  · have hcode : code = 36 := (List.cons.inj htile).1.symm
    exact absurd ⟨[], found, hvalid, .inr (by rw [hmore, hcode]; rfl)⟩ hhead
  simp only [token, cons_append, List.cons.injEq] at htile
  obtain ⟨hcode, hcode', hafter⟩ := htile
  refine ⟨piece', ?_, ?_⟩
  · rw [hmore, ← hcode, ← hcode']
    simp [token]
  rw [hafter]
  rfl

section Scans

variable {isKept : Units → Bool} {emit : Units → Units} {lookup : Units → Option Units}

theorem replaceOutside_of_none {code : ℕ} {chunk rest : Units}
    (h : matchPlaceholder (code :: rest) = none) :
    replaceOutside isKept emit chunk (code :: rest) =
      replaceOutside isKept emit (chunk ++ [code]) rest := by
  rw [replaceOutside]
  split
  · rfl
  · next hmatch => cases h.symm.trans hmatch

theorem replaceOutside_of_some {chunk : Units}
    (h : matchPlaceholder text = some (body, after)) : replaceOutside isKept emit chunk text =
      if isKept body then emit chunk ++ token body ++ replaceOutside isKept emit [] after
      else replaceOutside isKept emit (chunk ++ 36 :: 36 :: body) (36 :: 36 :: after) := by
  cases text with
  | nil => cases h
  | cons =>
    rw [replaceOutside]
    split
    · next hmatch => cases h.symm.trans hmatch
    next hmatch =>
    obtain ⟨rfl, rfl⟩ := Prod.mk.inj (Option.some.inj (h.symm.trans hmatch))
    rfl

theorem replaceOutside_tile (hvalid : validBody body = true)
    (hkept : isKept body = true) (hhead : ¬ OpenHead piece)
    (htokens : TokensIn (fun found => isKept found = false) piece) (chunk : Units) :
    replaceOutside isKept emit chunk (piece ++ (token body ++ rest)) =
      emit (chunk ++ piece) ++ token body ++ replaceOutside isKept emit [] rest := by
  induction hlength : piece.length using Nat.strong_induction_on generalizing piece chunk with
  | _ n ih =>
    cases piece with
    | nil =>
      have hmatch := matchPlaceholder_token hvalid (not_mem_of_validBody hvalid) rest
      rw [nil_append, replaceOutside_of_some hmatch, if_pos hkept, append_nil]
    | cons code piece =>
      cases hmatch : matchPlaceholder (code :: piece ++ (token body ++ rest)) with
      | none =>
        have hstep := @replaceOutside_of_none isKept emit code chunk _ hmatch
        have hrest := ih piece.length (by rw [← hlength]; exact Nat.lt_succ_self _)
          (fun h => hhead (h.of_suffix (suffix_cons code piece)))
          (htokens.of_infix (suffix_cons code piece).isInfix) (chunk ++ [code]) rfl
        have hchunk : chunk ++ [code] ++ piece = chunk ++ code :: piece := by simp
        rw [hchunk] at hrest
        exact hstep.trans hrest
      | some found =>
        obtain ⟨found, after⟩ := found
        obtain ⟨piece', hpiece, rfl⟩ :=
          matchPlaceholder_tile (cons_ne_nil _ _) hhead hmatch
        have hvalid' := (eq_of_matchPlaceholder hmatch).2.1
        have hsuffix : 36 :: 36 :: piece' <:+ code :: piece :=
          ⟨36 :: 36 :: found, by rw [hpiece]; simp [token]⟩
        have hshort : (36 :: 36 :: piece').length < n := by
          rw [← hlength, hpiece]
          simp only [token, length_cons, length_append, length_nil]
          omega
        have hnot : isKept found = false := htokens found hvalid'
          (hpiece ▸ infix_append_left)
        have hrest := ih _ hshort (fun h => hhead (h.of_suffix hsuffix))
          (htokens.of_infix hsuffix.isInfix) (chunk ++ 36 :: 36 :: found) rfl
        rw [replaceOutside_of_some hmatch, hnot, if_neg Bool.false_ne_true]
        refine hrest.trans ?_
        rw [hpiece]
        simp [token]

/-- What stands behind the last tile is one chunk. -/
theorem replaceOutside_last
    (htokens : TokensIn (fun found => isKept found = false) piece) (chunk : Units) :
    replaceOutside isKept emit chunk piece = emit (chunk ++ piece) := by
  induction hlength : piece.length using Nat.strong_induction_on generalizing piece chunk with
  | _ n ih =>
    cases piece with
    | nil => rw [replaceOutside, append_nil]
    | cons code piece =>
      cases hmatch : matchPlaceholder (code :: piece) with
      | none =>
        have hrest := ih piece.length (by rw [← hlength]; exact Nat.lt_succ_self _)
          (htokens.of_infix (suffix_cons code piece).isInfix) (chunk ++ [code]) rfl
        rw [append_assoc, singleton_append] at hrest
        exact (replaceOutside_of_none hmatch).trans hrest
      | some found =>
        obtain ⟨found, after⟩ := found
        obtain ⟨hpiece, hvalid, -⟩ := eq_of_matchPlaceholder hmatch
        have hsuffix : 36 :: 36 :: after <:+ code :: piece :=
          ⟨36 :: 36 :: found, by rw [hpiece]; simp [token]⟩
        have hshort : (36 :: 36 :: after).length < n := by
          rw [← hlength, hpiece]
          simp only [token, length_cons, length_append, length_nil]
          omega
        have hnot : isKept found = false := htokens found hvalid (hpiece ▸ infix_append_left)
        have hrest := ih _ hshort (htokens.of_infix hsuffix.isInfix)
          (chunk ++ 36 :: 36 :: found) rfl
        rw [replaceOutside_of_some hmatch, hnot, if_neg Bool.false_ne_true]
        refine hrest.trans ?_
        rw [hpiece]
        simp [token]

theorem restorePass_of_none {code : ℕ} (h : matchPlaceholder (code :: rest) = none) :
    restorePass lookup (code :: rest) = code :: restorePass lookup rest := by
  rw [restorePass]
  split
  · rfl
  · next hmatch => cases h.symm.trans hmatch

theorem restorePass_of_some (h : matchPlaceholder text = some (body, after)) :
    restorePass lookup text = (lookup body).getD (token body) ++ restorePass lookup after := by
  cases text with
  | nil => cases h
  | cons =>
    rw [restorePass]
    split
    · next hmatch => cases h.symm.trans hmatch
    next hmatch =>
    obtain ⟨rfl, rfl⟩ := Prod.mk.inj (Option.some.inj (h.symm.trans hmatch))
    rfl

/-- The piece in front of a tile stays, and the tile is its secret again. -/
theorem restorePass_tile {secret : Units} (hvalid : validBody body = true)
    (hlookup : lookup body = some secret) (hhead : ¬ OpenHead piece)
    (htokens : TokensIn (fun found => lookup found = none) piece) :
    restorePass lookup (piece ++ (token body ++ rest)) =
      piece ++ (secret ++ restorePass lookup rest) := by
  -- on the length of the piece, as a token in it is taken off as a whole
  induction hlength : piece.length using Nat.strong_induction_on generalizing piece with
  | _ n ih =>
    cases piece with
    | nil =>
      have hmatch := matchPlaceholder_token hvalid (not_mem_of_validBody hvalid) rest
      rw [nil_append, restorePass_of_some hmatch, hlookup]
      rfl
    | cons code piece =>
      cases hmatch : matchPlaceholder (code :: piece ++ (token body ++ rest)) with
      | none =>
        have hrest := ih piece.length (by rw [← hlength]; exact Nat.lt_succ_self _)
          (fun h => hhead (h.of_suffix (suffix_cons code piece)))
          (htokens.of_infix (suffix_cons code piece).isInfix) rfl
        exact (restorePass_of_none hmatch).trans (congrArg (code :: ·) hrest)
      | some found =>
        obtain ⟨found, after⟩ := found
        obtain ⟨piece', hpiece, rfl⟩ :=
          matchPlaceholder_tile (cons_ne_nil _ _) hhead hmatch
        have hvalid' := (eq_of_matchPlaceholder hmatch).2.1
        have hsuffix : piece' <:+ code :: piece := ⟨token found, hpiece.symm⟩
        have hshort : piece'.length < n := by
          rw [← hlength, hpiece]
          simp only [token, length_cons, length_append, length_nil]
          omega
        have hnone : lookup found = none := htokens found hvalid' (hpiece ▸ infix_append_left)
        have hrest := ih _ hshort (fun h => hhead (h.of_suffix hsuffix))
          (htokens.of_infix hsuffix.isInfix) rfl
        rw [restorePass_of_some hmatch, hnone, hrest, hpiece, append_assoc]
        rfl

/-- A text whose tokens are not known stays as it is. -/
theorem restorePass_last (htokens : TokensIn (fun found => lookup found = none) piece) :
    restorePass lookup piece = piece := by
  induction hlength : piece.length using Nat.strong_induction_on generalizing piece with
  | _ n ih =>
    cases piece with
    | nil => rw [restorePass]
    | cons code piece =>
      cases hmatch : matchPlaceholder (code :: piece) with
      | none =>
        have hrest := ih piece.length (by rw [← hlength]; exact Nat.lt_succ_self _)
          (htokens.of_infix (suffix_cons code piece).isInfix) rfl
        rw [restorePass_of_none hmatch, hrest]
      | some found =>
        obtain ⟨found, after⟩ := found
        obtain ⟨hpiece, hvalid, -⟩ := eq_of_matchPlaceholder hmatch
        have hshort : after.length < n := by
          rw [← hlength, length_after hmatch]
          omega
        have hnone : lookup found = none := htokens found hvalid (hpiece ▸ infix_append_left)
        have hrest := ih _ hshort (htokens.of_infix (hpiece ▸ infix_append_right)) rfl
        rw [restorePass_of_some hmatch, hnone, hrest, hpiece]
        rfl

theorem stripPrefixes_of_safe {isUnsafe : Units → Bool}
    (h : TokensIn (fun body => ∀ name bare, splitName body = some (name, bare) →
      isUnsafe name = false) text) : stripPrefixes isUnsafe text = text := by
  have hresume : ∀ {code : ℕ} {rest body after : Units},
      matchPlaceholder (code :: rest) = some (body, after) →
        36 :: 36 :: (body ++ 36 :: 36 :: after) = code :: rest := by
    intro code rest body after hmatch
    rw [(eq_of_matchPlaceholder hmatch).1]
    simp [token]
  have hsuffix : ∀ {code : ℕ} {rest body after : Units},
      matchPlaceholder (code :: rest) = some (body, after) →
        36 :: 36 :: after <:+: code :: rest := by
    intro code rest body after hmatch
    rw [← hresume hmatch]
    exact List.IsSuffix.isInfix ⟨36 :: 36 :: body, by simp⟩
  fun_induction stripPrefixes isUnsafe text with
  | case1 => rfl
  | case2 code rest hmatch ih =>
    rw [ih (h.of_infix (suffix_cons code rest).isInfix)]
  | case3 code rest body after hmatch hsplit ih =>
    rw [ih (h.of_infix (hsuffix hmatch)), hresume hmatch]
  | case4 code rest body after hmatch name bare hsplit hunsafe ih =>
    obtain ⟨htext, hvalid, -⟩ := eq_of_matchPlaceholder hmatch
    have hsafe := h body hvalid (htext ▸ infix_append_left) name bare hsplit
    cases hsafe.symm.trans hunsafe
  | case5 code rest body after hmatch name bare hsplit hunsafe ih =>
    rw [ih (h.of_infix (hsuffix hmatch)), hresume hmatch]

end Scans

/-! ### Tilings -/

/-- A secret with the body of its token. -/
abbrev Mapping : Type := Units × Units

/-- The pieces of a text, each with the secret behind it. The last piece stands for itself. -/
abbrev Tiles : Type := List (Units × Mapping)

/-- The text that is tiled. -/
def source : Tiles → Units → Units
  | [], last => last
  | (piece, mapping) :: tiles, last => piece ++ (mapping.1 ++ source tiles last)

/-- The text in which each secret is shown as its token. -/
def render : Tiles → Units → Units
  | [], last => last
  | (piece, mapping) :: tiles, last => piece ++ (token mapping.2 ++ render tiles last)

theorem source_append (tiles tiles' : Tiles) (piece last : Units) (mapping : Mapping) :
    source (tiles ++ (piece, mapping) :: tiles') last =
      source tiles piece ++ (mapping.1 ++ source tiles' last) := by
  induction tiles with
  | nil => rfl
  | cons tile tiles ih =>
    rw [cons_append, source, ih, source, append_assoc, append_assoc]

theorem render_append (tiles tiles' : Tiles) (piece last : Units) (mapping : Mapping) :
    render (tiles ++ (piece, mapping) :: tiles') last =
      render tiles piece ++ (token mapping.2 ++ render tiles' last) := by
  induction tiles with
  | nil => rfl
  | cons tile tiles ih =>
    rw [cons_append, render, ih, render, append_assoc, append_assoc]

variable {mapping : Mapping}

theorem exists_tiles_replaceAll (hne : mapping.1 ≠ []) (piece : Units) :
    ∃ tiles last, replaceAll mapping.1 (token mapping.2) piece = render tiles last ∧
      source tiles last = piece ∧ ∀ tile ∈ tiles, tile.2 = mapping := by
  induction hlength : piece.length using Nat.strong_induction_on generalizing piece with
  | _ n ih =>
    rcases replaceAll_cases hne (token mapping.2) piece with habsent | ⟨front, back, hpiece, -, heq⟩
    · exact ⟨[], piece, replaceAll_of_absent habsent, rfl, fun tile htile => nomatch htile⟩
    have hpos := length_pos_iff.mpr hne
    have hshort : back.length < n := by
      rw [← hlength, hpiece]
      simp only [length_append]
      omega
    obtain ⟨tiles, last, hrender, hsource, hall⟩ := ih _ hshort back rfl
    refine ⟨(front, mapping) :: tiles, last, ?_, ?_, ?_⟩
    · rw [heq, hrender, render, append_assoc]
    · rw [source, hsource, hpiece, append_assoc]
    intro tile htile
    rcases mem_cons.mp htile with rfl | htile
    · rfl
    · exact hall tile htile

namespace SecretObfuscator

variable {ob : SecretObfuscator}

/-- Each secret that is hidden has a token, which the obfuscator knows, and which is no secret. -/
structure Minted (ob : SecretObfuscator) : Prop where
  ne_nil : ∀ mapping ∈ ob.plainMappings, mapping.1 ≠ []
  known : ∀ mapping ∈ ob.plainMappings, JsMap.get ob.deobfuscateMap mapping.2 = some mapping.1
  valid : ∀ mapping ∈ ob.plainMappings, validBody mapping.2 = true
  unnamed : ∀ mapping ∈ ob.plainMappings, splitName mapping.2 = none
  noSecret : ∀ mapping ∈ ob.plainMappings, ∀ other ∈ ob.plainMappings,
    token mapping.2 ≠ other.1

/-- The tokens in a text are not known, and have no unsafe names. -/
def Foreign (ob : SecretObfuscator) (text : Units) : Prop :=
  TokensIn (fun body => ob.lookupLiveAlias body = none ∧
    ∀ name bare, splitName body = some (name, bare) → ob.nameIsSecretShaped name = false) text

/-- No secret stands directly behind an open head. -/
def HeadsClosed (ob : SecretObfuscator) (text : Units) : Prop :=
  ∀ front back, ∀ mapping ∈ ob.plainMappings, text = front ++ (mapping.1 ++ back) →
    ¬ OpenHead front

/-- The pieces of a tiling that can be read again. -/
def Readable (ob : SecretObfuscator) : Tiles → Units → Prop
  | [], last => ob.Foreign last
  | (piece, mapping) :: tiles, last =>
    ob.Foreign piece ∧ ¬ OpenHead piece ∧ mapping ∈ ob.plainMappings ∧ Readable ob tiles last

/-- A tiling of a text in which no secret stands behind an open head can be read again. -/
theorem readable_of_source {text front last : Units} {tiles : Tiles} (hforeign : ob.Foreign text)
    (hheads : ob.HeadsClosed text) (htext : text = front ++ source tiles last)
    (htiles : ∀ tile ∈ tiles, tile.2 ∈ ob.plainMappings) : ob.Readable tiles last := by
  induction tiles generalizing front with
  | nil => exact hforeign.of_infix (htext ▸ infix_append_right)
  | cons tile tiles ih =>
    obtain ⟨piece, mapping⟩ := tile
    rw [source] at htext
    have hmapping : mapping ∈ ob.plainMappings := htiles _ mem_cons_self
    refine ⟨?_, fun hopen => ?_, hmapping, ?_⟩
    · refine hforeign.of_infix ?_
      rw [htext]
      exact infix_append' front piece _
    · refine hheads (front ++ piece) (source tiles last) mapping hmapping ?_
        (hopen.of_suffix ⟨front, rfl⟩)
      rw [htext, append_assoc]
    refine @ih (front ++ (piece ++ mapping.1)) ?_
      fun tile htile => htiles tile (mem_cons_of_mem _ htile)
    rw [htext]
    simp

variable {tiles : Tiles} {last : Units}

/-- Hiding a secret refines the tiling, and leaves the text that is tiled. -/
theorem Minted.replacePlain_render (h : ob.Minted) (hmapping : mapping ∈ ob.plainMappings)
    (hreadable : ob.Readable tiles last) (htiles : ∀ tile ∈ tiles, tile.2 ∈ ob.plainMappings) :
    ∃ tiles' last', ob.replacePlain (render tiles last) mapping.1 (token mapping.2) =
        render tiles' last' ∧ source tiles' last' = source tiles last ∧
      ∀ tile ∈ tiles', tile.2 ∈ ob.plainMappings := by
  have hne := h.ne_nil mapping hmapping
  have hunkept : ∀ {piece}, ob.Foreign piece → TokensIn (fun found =>
      (ob.isGeneratedPlaceholder found && token found != mapping.1) = false) piece := by
    intro piece hforeign body hvalid htoken
    rw [isGeneratedPlaceholder, (hforeign body hvalid htoken).1]
    rfl
  have hkept : ∀ other ∈ ob.plainMappings,
      (ob.isGeneratedPlaceholder other.2 && token other.2 != mapping.1) = true := by
    intro other hother
    have hlive : ob.lookupLiveAlias other.2 = some other.1 := by
      rw [lookupLiveAlias, h.known other hother]
    rw [isGeneratedPlaceholder, hlive, Bool.and_eq_true_iff]
    exact ⟨rfl, bne_iff_ne.mpr (h.noSecret other hother mapping hmapping)⟩
  rw [SecretObfuscator.replacePlain, if_neg hne]
  induction tiles with
  | nil =>
    obtain ⟨tiles', last', hrender, hsource, hall⟩ := exists_tiles_replaceAll hne last
    refine ⟨tiles', last', ?_, hsource, fun tile htile => hall tile htile ▸ hmapping⟩
    rw [render, replaceOutside_last (hunkept hreadable), nil_append, hrender]
  | cons tile tiles ih =>
    obtain ⟨piece, other⟩ := tile
    obtain ⟨hforeign, hhead, hother, hrest⟩ := hreadable
    -- the piece is tiled on its own, and its last piece stands in front of the old tile
    obtain ⟨front, between, hrender, hsource, hall⟩ := exists_tiles_replaceAll hne piece
    obtain ⟨back, last', hrender', hsource', hall'⟩ :=
      ih hrest fun tile htile => htiles tile (mem_cons_of_mem _ htile)
    refine ⟨front ++ (between, other) :: back, last', ?_, ?_, fun tile htile => ?_⟩
    · rw [render, replaceOutside_tile (h.valid other hother) (hkept other hother) hhead
        (hunkept hforeign), nil_append, hrender, hrender', render_append,
        append_assoc]
    · rw [source_append, hsource, hsource', source]
    rcases mem_append.mp htile with htile | htile
    · exact hall tile htile ▸ hmapping
    rcases mem_cons.mp htile with rfl | htile
    · exact hother
    · exact hall' tile htile

/-- Reading a tiling gives back the text that is tiled. -/
theorem Minted.restorePass_render (h : ob.Minted) (hreadable : ob.Readable tiles last) :
    restorePass ob.lookupLiveAlias (render tiles last) = source tiles last := by
  have hnone : ∀ {piece}, ob.Foreign piece →
      TokensIn (fun found => ob.lookupLiveAlias found = none) piece :=
    fun hforeign body hvalid htoken => (hforeign body hvalid htoken).1
  induction tiles with
  | nil => exact restorePass_last (hnone hreadable)
  | cons tile tiles ih =>
    obtain ⟨piece, mapping⟩ := tile
    obtain ⟨hforeign, hhead, hmapping, hrest⟩ := hreadable
    have hlive : ob.lookupLiveAlias mapping.2 = some mapping.1 := by
      rw [lookupLiveAlias, h.known mapping hmapping]
    rw [render, restorePass_tile (h.valid mapping hmapping) hlive hhead (hnone hforeign),
      ih hrest, source]

theorem Minted.obfuscatePhase_render (h : ob.Minted) (hforeign : ob.Foreign text)
    (hheads : ob.HeadsClosed text) :
    ∃ tiles last, ob.obfuscatePhase text = render tiles last ∧ source tiles last = text ∧
      ∀ tile ∈ tiles, tile.2 ∈ ob.plainMappings := by
  have hrun : ∀ (mappings : List Mapping), (∀ mapping ∈ mappings, mapping ∈ ob.plainMappings) →
      ∀ (tiles : Tiles) (last : Units), source tiles last = text →
        (∀ tile ∈ tiles, tile.2 ∈ ob.plainMappings) →
        ∃ tiles' last', mappings.foldl (fun t mapping =>
            ob.replacePlain t mapping.1 (token (ob.placeholderForCurrentInput mapping.2)))
              (render tiles last) = render tiles' last' ∧ source tiles' last' = text ∧
          ∀ tile ∈ tiles', tile.2 ∈ ob.plainMappings := by
    intro mappings
    induction mappings with
    | nil => exact fun _ tiles last hsource htiles => ⟨tiles, last, rfl, hsource, htiles⟩
    | cons mapping mappings ih =>
      intro hmappings tiles last hsource htiles
      have hmapping := hmappings mapping mem_cons_self
      have hreadable : ob.Readable tiles last :=
        @readable_of_source ob text [] last tiles hforeign hheads hsource.symm htiles
      have htoken : ob.placeholderForCurrentInput mapping.2 = mapping.2 := by
        rw [placeholderForCurrentInput, h.unnamed mapping hmapping]
      obtain ⟨tiles', last', hrender, hsource', htiles'⟩ :=
        h.replacePlain_render hmapping hreadable htiles
      rw [foldl_cons, htoken, hrender]
      exact ih (fun m hm => hmappings m (mem_cons_of_mem _ hm)) tiles' last'
        (hsource'.trans hsource) htiles'
  exact hrun (byLength ob.plainMappings) (fun m hm => (mem_insertionSort _).mp hm) [] text rfl
    fun tile htile => nomatch htile

/-- The round trip, for an obfuscator whose tokens are in order. -/
theorem Minted.deobfuscate_obfuscate (h : ob.Minted) (hforeign : ob.Foreign text)
    (hheads : ob.HeadsClosed text) (hreplaced : ob.replacePhase text = text) :
    ob.deobfuscate (ob.obfuscate text) = text := by
  by_cases hany : ob.hasAny = true
  · have hstrip : stripPrefixes ob.nameIsSecretShaped text = text :=
      stripPrefixes_of_safe fun body hvalid htoken => (hforeign body hvalid htoken).2
    obtain ⟨tiles, last, hrender, hsource, htiles⟩ := h.obfuscatePhase_render hforeign hheads
    have hobfuscate : ob.obfuscate text = render tiles last := by
      rw [obfuscate, if_pos hany, hreplaced, hstrip, hrender]
    have hreadable : ob.Readable tiles last :=
      @readable_of_source ob text [] last tiles hforeign hheads hsource.symm htiles
    have hrestore : restorePass ob.lookupLiveAlias (render tiles last) = text :=
      (h.restorePass_render hreadable).trans hsource
    rw [hobfuscate, deobfuscate, hany, Bool.true_and]
    split
    · exact hrestore
    next hdollars =>
    -- a text without two dollars has no token in it, and reads as it is
    have hplain : restorePass ob.lookupLiveAlias (render tiles last) = render tiles last :=
      restorePass_last (.of_notInfix fun hin => hdollars (decide_eq_true hin))
    exact hplain.symm.trans hrestore
  have hsame : ∀ t, ob.obfuscate t = t := fun t => if_neg hany
  have hfalse : ob.hasAny = false := by simpa using hany
  rw [hsame, deobfuscate, hfalse]
  rfl

end SecretObfuscator

end BreadboardTui.Secrets

import BinaryAst.Proofs.Container.Assembly
/-!
# BinaryAst.Proofs.Container.Cuts

A container that is cut short (`decode_of_cut`).

Wherever an accepted container is cut before the end of its root, decoding what is left fails,
and the failure is of the container itself: it is never put down to a section, a field or a
text. What was told up to there is the start of what is told of the whole.
-/

namespace BinaryAst

open Decode

namespace Module

variable {bytes : Bytes} {c : Configuration} {schema : Schema} {limits : Limits} {m : Module}
  {events : List Event}

/-- `decode` of a container that is cut in its magic bytes shows what is left of it, in `badMagic`.
-/
theorem decode_of_short (h : bytes.length < magic.length) :
    decode bytes c schema limits = ⟨.error (.badMagic bytes), []⟩ := by
  have hread : Assemble.read Header.read (.start c bytes) =
      .error (.badMagic bytes) ((Assembly.start c bytes).after bytes.length []) := by
    have := Read.header_of_short (r := (Assembly.start c bytes).container) h
    simp only [Assembly.unread_start] at this
    simp [Assemble.read, this, Assembly.after]
  rw [decode_of_error (by rw [Assemble.moduleOf_eq, bind_of_error hread])]
  rfl

/-- A shortage that the container reports, by `truncated`, is at an offset where it has too little
left. -/
theorem truncated_start (c : Configuration) (bytes : Bytes) (count need : Nat)
    (hle : count ≤ bytes.length) :
    ∃ offset rest, ((Assembly.start c bytes).container.skip count).truncated need =
      .truncated "module" offset need rest ∧ offset + rest = bytes.length := by
  refine ⟨count, bytes.length - count, ?_, by omega⟩
  have hoffset := Assembly.offset_after_start c bytes count []
  rw [Assembly.container_after] at hoffset
  rw [Reader.truncated, hoffset, Reader.remaining_eq, Reader.unread_skip, Assembly.unread_start,
    List.length_drop]
  rfl

/-- `decode` of a container that is cut in its counts runs out of bytes, and has told nothing. -/
theorem decode_of_cut_header (c : Configuration) (schema : Schema) (limits : Limits)
    {header : Header} (hfits : header.Fits) (hp : bytes <+: header.bytes)
    (hmagic : magic.length ≤ bytes.length) (hlt : bytes.length < header.bytes.length) :
    ∃ offset need rest, decode bytes c schema limits =
      ⟨.error (.truncated "module" offset need rest), []⟩ ∧ offset + rest = bytes.length := by
  obtain ⟨need, count, hle, hread⟩ :=
    Read.header_of_cut (r := (Assembly.start c bytes).container) hfits hp hmagic hlt
  obtain ⟨offset, rest, hreport, hsum⟩ := truncated_start c bytes count need hle
  refine ⟨offset, need, rest, ?_, hsum⟩
  have hstep : Assemble.read Header.read (.start c bytes) =
      .error (.truncated "module" offset need rest) ((Assembly.start c bytes).after count []) := by
    simp [Assemble.read, hread, hreport, Assembly.after]
  rw [decode_of_error (by rw [Assemble.moduleOf_eq, bind_of_error hstep])]
  rfl

/-- `decode` of a container that is cut behind its header runs out of bytes, and has told the first
of the events that its layout `Describes`. -/
theorem decode_of_cut_body {l : Layout} {front : Bytes} (hfits : l.header.Fits)
    (hdescribes : l.Describes c schema Header.size m events) (hadmits : limits.Admits m)
    (hbytes : bytes = l.header.bytes ++ front) (hp : front <+: Part.bytesOf l.parts)
    (hlt : front.length < (Part.bytesOf l.parts).length) :
    ∃ offset need rest told, decode bytes c schema limits =
      ⟨.error (.truncated "module" offset need rest), told⟩ ∧ offset + rest = bytes.length ∧
        told <+: events := by
  have hheader : Assemble.read Header.read (.start c bytes) =
      .ok l.header ((Assembly.start c bytes).after Header.size []) :=
    Assemble.read_header_eq_ok_iff.mpr ⟨hfits, ⟨front, hbytes.symm⟩, rfl⟩
  have hunread : ((Assembly.start c bytes).after Header.size []).container.unread = front := by
    rw [Assembly.container_after, Reader.unread_skip, Assembly.unread_start, hbytes,
      ← Header.length_bytes l.header, List.drop_left]
  obtain ⟨need, count, heard, hheard, hle, hbody⟩ :=
    -- The body parses what the layout has behind its header, so it starves within that.
    (parses_body c schema limits l.header).starves
      ((Assembly.start c bytes).after Header.size []) m _ events rfl
      ⟨l, rfl, rfl, by rwa [Assembly.offset_after_start], hadmits⟩ (by rwa [hunread])
      (by rwa [hunread])
  rw [hunread] at hle
  obtain ⟨offset, rest, hreport, hsum⟩ := truncated_start c bytes
    (Header.size + count) need (by
      rw [hbytes, List.length_append, Header.length_bytes]
      omega)
  refine ⟨offset, need, rest, heard, ?_, hsum, hheard⟩
  rw [Assembly.container_after, Reader.skip_skip, hreport] at hbody
  have hrun : Assemble.moduleOf c schema limits (.start c bytes) =
      .error (.truncated "module" offset need rest)
        (((Assembly.start c bytes).after Header.size []).after count heard) := by
    rw [Assemble.moduleOf_eq, bind_of_ok hheader, hbody]
  rw [decode_of_error hrun]
  simp [Assembly.after, Assembly.start]

/-- `decode` fails on an accepted container that is cut before its `extent`. Within the magic bytes,
what is left is shown; behind them, the container runs out of bytes at its end. The events are the
first of those that the whole container tells. -/
theorem decode_of_cut (h : decode bytes c schema limits = ⟨.ok m, events⟩) {count : Nat}
    (hcount : count < m.extent) :
    (decode (bytes.take count) c schema limits).events <+: events ∧
      (count < magic.length → (decode (bytes.take count) c schema limits).result =
        .error (.badMagic (bytes.take count))) ∧
      (magic.length ≤ count → ∃ offset need rest,
        (decode (bytes.take count) c schema limits).result =
          .error (.truncated "module" offset need rest) ∧ offset + rest = count) := by
  obtain ⟨l, hfits, hdescribes, hp, hadmits⟩ := decode_eq_ok_iff.mp h
  rw [hdescribes.extent_eq] at hcount
  have hlen : (bytes.take count).length = count := by
    have := hp.length_le
    rw [List.length_take]
    omega
  have htake : bytes.take count <+: l.header.bytes ++ Part.bytesOf l.parts :=
    List.prefix_of_prefix_length_le (List.take_prefix count bytes) hp (by
      rw [hlen]
      exact Nat.le_of_lt hcount)
  -- the cut is in the magic bytes, in the counts or behind the header
  by_cases hmagic : count < magic.length
  · rw [decode_of_short (by rwa [hlen])]
    exact ⟨List.nil_prefix, fun _ => rfl, fun hle => absurd hmagic (Nat.not_lt.mpr hle)⟩
  by_cases hheader : count < l.header.bytes.length
  · have hfront : bytes.take count <+: l.header.bytes :=
      List.prefix_of_prefix_length_le htake (List.prefix_append _ _) (by omega)
    obtain ⟨offset, need, rest, hdecode, hsum⟩ := decode_of_cut_header c schema limits
      hfits hfront (by omega) (by omega)
    rw [hdecode]
    exact ⟨List.nil_prefix, fun hlt => absurd hlt hmagic,
      fun _ => ⟨offset, need, rest, rfl, by rw [hsum, hlen]⟩⟩
  · obtain ⟨front, hfront⟩ : l.header.bytes <+: bytes.take count :=
      List.prefix_of_prefix_length_le (List.prefix_append _ _) htake (by omega)
    have hlt : front.length < (Part.bytesOf l.parts).length := by
      have := congrArg List.length hfront
      rw [Layout.bytes] at hcount
      simp only [List.length_append] at hcount this
      omega
    obtain ⟨offset, need, rest, told, hdecode, hsum, htold⟩ := decode_of_cut_body hfits hdescribes
      hadmits hfront.symm ((List.prefix_append_right_inj _).mp (hfront ▸ htake)) hlt
    rw [hdecode]
    exact ⟨htold, fun hlt => absurd hlt hmagic,
      fun _ => ⟨offset, need, rest, rfl, by rw [hsum, hlen]⟩⟩

/-- `loopContainer`, cut within its last payload. -/
theorem decode_of_cut_loopContainer :
    decode (loopContainer 1 0) {} loopSchema {} = ⟨.ok (loopModule 1), loopEvents⟩ ∧
      95 < (loopModule 1).extent ∧
      ∃ offset need rest, (decode ((loopContainer 1 0).take 95) {} loopSchema {}).result =
        .error (.truncated "module" offset need rest) ∧ offset + rest = 95 := by
  have hcount : 95 < (loopModule 1).extent := by decide
  exact ⟨decode_loopContainer, hcount,
    (decode_of_cut decode_loopContainer hcount).2.2 (by decide)⟩

end Module

end BinaryAst

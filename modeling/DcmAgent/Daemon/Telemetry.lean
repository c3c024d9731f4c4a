import Mathlib.Tactic
import DcmAgent.Daemon.Layout
import DcmAgent.Library.JsonText

/-!
# The telemetry member

`dcmSettingJsonInit` cuts a document off before the name of the telemetry member and closes it
there. Which settings are left depends on where the name stands.
-/

namespace DcmAgent.Daemon

open Library JsonText

/-- The keys that `dcmSettingParseConf` looks up. -/
def settingKeys : List (List Char) :=
  [dcmLogUploadProtocol, dcmLogUploadUrl, dcmTimezone, dcmLogUploadReboot, dcmLogUploadCron,
    dcmDifdCron]

/-- A parser of the grammar: an object is parsed member by member, and no other text is taken for
one. -/
structure Standard (parse : List Char → Option Json)
    (decode : List Char → List Char × JsonItem) : Prop where
  parses : ∀ {text : List Char} {ms : List (List Char)}, members text = some ms →
    parse text = some (ms.map decode)
  refuses : ∀ {text : List Char}, isText text = false → parse text = none

/-- A document of one line, with or without its end, that the buffer holds. -/
structure Document (line : List Char) (ms : List (List Char)) : Prop where
  object : members line = some ms
  length : line.length < dcmJsonStrSize
  oneLine : '\n' ∉ line.dropLast

/-- Opening the document gives every setting its value there. -/
def KeepsSettings (parse : List Char → Option Json) (line : List Char) (json : Json) : Prop :=
  ∃ json', dcmSettingJsonInit parse (some line) = some (some json') ∧
    ∀ key ∈ settingKeys, cJSONGetObjectItem json' key = cJSONGetObjectItem json key

/-- The members of a document that are complete at the end of a part of it. -/
def membersBefore (front : List Char) : List (List Char) :=
  ((scan front).map Scan.members).getD []

/-- What stands before a place: a comma between members of the document and a quote, or the brace
that opens the document and two more characters. -/
def CutsBetween (line : List Char) (lc : ℕ) : Prop :=
  (∃ front, line.take lc = front ++ [',', '"'] ∧
    (scan front).map (·.place.stack) = some [.object]) ∨
  Opening (line.take (lc - 2))

/-- Where the telemetry text first occurs, whole members are cut off, and no setting is only among
them. -/
def CutsCleanly (decode : List Char → List Char × JsonItem) (line : List Char)
    (ms : List (List Char)) : Prop :=
  ∀ lc, Cron.strstr dcmT2JsonStr line = some lc →
    CutsBetween line lc ∧
      ∀ key ∈ settingKeys, (cJSONGetObjectItem (ms.map decode) key).isSome →
        (cJSONGetObjectItem ((membersBefore (line.take lc)).map decode) key).isSome

/-! ### Lookups -/

lemma cJSONGetObjectItem_append (json json' : Json) (item : List Char) :
    cJSONGetObjectItem (json ++ json') item =
      (cJSONGetObjectItem json item).or (cJSONGetObjectItem json' item) := by
  rw [cJSONGetObjectItem, List.find?_append]
  unfold cJSONGetObjectItem
  cases json.find? fun m => m.1.map Char.toLower = item.map Char.toLower <;> rfl

/-- The first members of a document have its value for a key when they have one. -/
lemma getObjectItem_eq_iff {front json : Json} (h : front <+: json) (item : List Char) :
    cJSONGetObjectItem front item = cJSONGetObjectItem json item ↔
      ((cJSONGetObjectItem json item).isSome → (cJSONGetObjectItem front item).isSome) := by
  obtain ⟨rest, rfl⟩ := h
  rw [cJSONGetObjectItem_append]
  cases cJSONGetObjectItem front item with
  | some v => simp
  | none =>
    rw [Option.none_or]
    cases cJSONGetObjectItem rest item <;> simp

/-! ### The place of the cut -/

lemma strstr_eq_some {rep s : List Char} {n : ℕ} (h : Cron.strstr rep s = some n) :
    ∃ front rest, s = front ++ (rep ++ rest) ∧ front.length = n := by
  induction s generalizing n with
  | nil =>
    rw [Cron.strstr] at h
    split_ifs at h with hrep
    exact ⟨[], [], by rw [hrep]; rfl, Option.some.inj h⟩
  | cons c s ih =>
    rw [Cron.strstr] at h
    split_ifs at h with hpre
    · obtain ⟨rest, hrest⟩ := List.isPrefixOf_iff_prefix.mp hpre
      exact ⟨[], rest, hrest.symm, Option.some.inj h⟩
    · obtain ⟨n, hn, rfl⟩ := Option.map_eq_some_iff.mp h
      obtain ⟨front, rest, rfl, rfl⟩ := ih hn
      exact ⟨c :: front, rest, rfl, rfl⟩

/-- The two characters that the cut overwrites, and the places around them. -/
structure CutPlace (line : List Char) (ms : List (List Char)) (lc : ℕ) (pre : List Char)
    (c d : Char) (s t u : Scan) : Prop where
  take : line.take lc = pre ++ [c, d]
  length : pre.length + 2 = lc
  opens : ∃ rest, opensObject (pre ++ rest) = true
  before : scan pre = some s
  first : s.step c = some t
  second : t.step d = some u
  string : ∃ isName, u.place.mode = .string isName .plain
  members : u.members <+: ms

lemma exists_cutPlace {line : List Char} {ms : List (List Char)} {lc : ℕ}
    (hobject : JsonText.members line = some ms) (hlc : Cron.strstr dcmT2JsonStr line = some lc) :
    ∃ pre c d s t u, CutPlace line ms lc pre c d s t u := by
  obtain ⟨z, hscan, -, hopens, rfl⟩ := members_eq_some.mp hobject
  obtain ⟨front, rest, rfl, rfl⟩ := strstr_eq_some hlc
  obtain ⟨tail, htail⟩ : ∃ tail, dcmT2JsonStr ++ rest = 'u' :: 'r' :: tail := ⟨_, rfl⟩
  rw [htail] at hscan hopens ⊢
  obtain ⟨u, hu, hrest⟩ := scanFrom_append_eq_some.mp hscan
  obtain ⟨v, hv, hrest'⟩ := scanFrom_cons_eq_some.mp hrest
  obtain ⟨w, hw, -⟩ := scanFrom_cons_eq_some.mp hrest'
  obtain ⟨isName, hstring⟩ := string_of_step (place_of_step hv) (place_of_step hw)
  rcases List.eq_nil_or_concat front with rfl | ⟨front, d, rfl⟩
  · obtain rfl := Option.some.inj hu
    cases hstring
  rw [List.concat_eq_append] at hu hopens ⊢
  obtain ⟨t, ht, hlast⟩ := scanFrom_append_eq_some.mp hu
  obtain ⟨u', hd, hu'⟩ := scanFrom_cons_eq_some.mp hlast
  obtain rfl := Option.some.inj hu'
  rcases List.eq_nil_or_concat front with rfl | ⟨pre, c, rfl⟩
  · -- a document does not begin with a quote
    obtain rfl := Option.some.inj ht
    have hstep := place_of_step hd
    rw [Place.step] at hstep
    by_cases hblank : isBlank d = true
    · rw [show Scan.start.place.mode = .value from rfl] at hstep
      simp only [hblank, if_true] at hstep
      rw [← Option.some.inj hstep] at hstring
      cases hstring
    · have hhead : d = '{' := by
        rw [List.nil_append, List.cons_append, opensObject,
          List.dropWhile_cons_of_neg hblank] at hopens
        simpa using hopens
      subst hhead
      rw [← Option.some.inj hstep] at hstring
      cases hstring
  · rw [List.concat_eq_append] at ht hopens ⊢
    obtain ⟨s, hs, hlast'⟩ := scanFrom_append_eq_some.mp ht
    obtain ⟨t', hc, ht'⟩ := scanFrom_cons_eq_some.mp hlast'
    obtain rfl := Option.some.inj ht'
    refine ⟨pre, c, d, s, t', u', ?_, ?_, ⟨c :: d :: 'u' :: 'r' :: tail, ?_⟩, hs, hc, hd,
      ⟨isName, hstring⟩, members_prefix hrest⟩
    · rw [List.take_left', List.append_assoc]
      · rfl
      · rfl
    · simp
    · simpa using hopens

variable {line : List Char} {ms : List (List Char)} {lc : ℕ} {pre : List Char} {c d : Char}
  {s t u : Scan}

lemma CutPlace.membersBefore (h : CutPlace line ms lc pre c d s t u) :
    membersBefore (line.take lc) = u.members := by
  have hscan : scan (pre ++ [c, d]) = some u :=
    scanFrom_append_eq_some.mpr ⟨s, h.before, scanFrom_cons_eq_some.mpr ⟨t, h.first,
      scanFrom_cons_eq_some.mpr ⟨u, h.second, rfl⟩⟩⟩
  rw [Daemon.membersBefore, h.take, hscan]
  rfl

/-- Whole members are cut off where the object may be closed. -/
lemma CutPlace.closable_iff (h : CutPlace line ms lc pre c d s t u) :
    s.place.Closable ↔ CutsBetween line lc := by
  obtain ⟨isName, hstring⟩ := h.string
  have htake : line.take (lc - 2) = pre := by
    have := congrArg (List.take pre.length) h.take
    rwa [List.take_take, List.take_left', min_eq_left (by have := h.length; omega),
      show pre.length = lc - 2 by have := h.length; omega] at this
    rfl
  constructor
  · intro hclosable
    rcases hclosable.opens (place_of_step h.first) (place_of_step h.second) hstring with
      hfirst | ⟨rfl, rfl⟩
    · obtain ⟨rest, hopens⟩ := h.opens
      right
      rw [htake]
      exact opening_of_scan hopens h.before
        (by rw [← hfirst, ← hclosable.stack])
    · exact .inl ⟨pre, h.take, by rw [h.before, Option.map_some, hclosable.stack]⟩
  · rintro (⟨front, hfront, hstack⟩ | hopening)
    · rw [h.take] at hfront
      obtain ⟨rfl, hcd⟩ := List.append_inj' hfront rfl
      obtain ⟨rfl, hd⟩ := List.cons.inj hcd
      obtain ⟨rfl, -⟩ := List.cons.inj hd
      rw [h.before] at hstack
      have hobject : s.place.stack = [.object] := Option.some.inj hstack
      exact ⟨hobject, .inr (isEnd_of_step hobject (place_of_step h.first)
        (place_of_step h.second) hstring)⟩
    · rw [htake] at hopening
      obtain ⟨s', hs', hplace, -⟩ := hopening.scan
      obtain rfl := Option.some.inj (h.before.symm.trans hs')
      exact ⟨by rw [hplace], .inl (by rw [hplace])⟩

/-! ### The document without its end -/

lemma Document.dcmSettingJsonInit (h : Document line ms) (parse : List Char → Option Json) :
    dcmSettingJsonInit parse (some line) = (removeTelemetry line).map parse := by
  obtain ⟨z, hscan, -, hopens, -⟩ := members_eq_some.mp h.object
  have hne : line ≠ [] := by
    rintro rfl
    cases hopens
  have hnul : line.takeWhile (· ≠ nul) = line := by
    rw [List.takeWhile_eq_self_iff]
    intro c hc
    exact decide_eq_true fun heq => notMem_of_scanFrom hscan (show nul ∈ line from heq ▸ hc)
  have htake : line.take (dcmJsonStrSize - 1) = line :=
    List.take_of_length_le (Nat.le_pred_of_lt h.length)
  simp only [Daemon.dcmSettingJsonInit, fgets, if_neg hne, line_eq h.oneLine, htake, hnul]

lemma CutPlace.removeTelemetry (h : CutPlace line ms lc pre c d s t u)
    (hlc : Cron.strstr dcmT2JsonStr line = some lc) :
    removeTelemetry line = some (pre ++ ['}']) := by
  have hlength := h.length
  have htake : line.take (lc - 2) = pre := by
    have := congrArg (List.take pre.length) h.take
    rwa [List.take_take, List.take_left', min_eq_left (by omega),
      show pre.length = lc - 2 by omega] at this
    rfl
  rw [Daemon.removeTelemetry, hlc]
  simp only [htake, if_pos (show 2 ≤ lc by omega)]

/-- What is left is an object, with the members before the cut, exactly where the object may be
closed. -/
lemma CutPlace.members_of_closable (h : CutPlace line ms lc pre c d s t u)
    (hclosable : s.place.Closable) : JsonText.members (pre ++ ['}']) = some u.members := by
  obtain ⟨isName, hstring⟩ := h.string
  obtain ⟨z, hz, hplace⟩ := step_of_place hclosable.step
  refine members_eq_some.mpr ⟨z, ?_, ?_, ?_, hclosable.members h.first h.second hstring hz⟩
  · exact scanFrom_append_eq_some.mpr ⟨s, h.before, scanFrom_cons_eq_some.mpr ⟨z, hz, rfl⟩⟩
  · rw [Scan.accepts, hplace]
    rfl
  · obtain ⟨rest, hopens⟩ := h.opens
    obtain ⟨before, tail, rfl, hbefore⟩ :=
      exists_brace hopens h.before (by rw [hclosable.stack]; exact List.cons_ne_nil _ _)
    rw [List.append_assoc, List.cons_append]
    exact opensObject_brace hbefore

lemma CutPlace.not_isText (h : CutPlace line ms lc pre c d s t u)
    (hclosable : ¬s.place.Closable) : isText (pre ++ ['}']) = false := by
  by_contra htext
  rw [Bool.not_eq_false, isText, Option.any_eq_true] at htext
  obtain ⟨z, hscan, haccepts⟩ := htext
  rw [Scan.accepts, Bool.and_eq_true] at haccepts
  obtain ⟨s', hs', hlast⟩ := scanFrom_append_eq_some.mp hscan
  obtain rfl := Option.some.inj (h.before.symm.trans hs')
  obtain ⟨z', hz, hz'⟩ := scanFrom_cons_eq_some.mp hlast
  obtain rfl := Option.some.inj hz'
  exact hclosable (closable_of_step (place_of_step hz) (of_decide_eq_true haccepts.1) haccepts.2)

/-- **Removing the telemetry member.** With a standard parser, a document of one line opens with
the values that its settings have exactly when the telemetry text cuts it cleanly. -/
theorem keepsSettings_iff {parse : List Char → Option Json}
    {decode : List Char → List Char × JsonItem} (hparse : Standard parse decode)
    (hdoc : Document line ms) :
    KeepsSettings parse line (ms.map decode) ↔ CutsCleanly decode line ms := by
  rw [KeepsSettings, hdoc.dcmSettingJsonInit, CutsCleanly]
  cases hlc : Cron.strstr dcmT2JsonStr line with
  | none =>
    have hwhole : removeTelemetry line = some line := by rw [removeTelemetry, hlc]
    rw [hwhole, Option.map_some, hparse.parses hdoc.object]
    constructor
    · intro _ lc hno
      cases hno
    · intro _
      exact ⟨_, rfl, fun key _ => rfl⟩
  | some lc =>
    obtain ⟨pre, c, d, s, t, u, hcut⟩ := exists_cutPlace hdoc.object hlc
    rw [hcut.removeTelemetry hlc, Option.map_some]
    by_cases hclosable : s.place.Closable
    · rw [hparse.parses (hcut.members_of_closable hclosable)]
      have hfront : u.members.map decode <+: ms.map decode := hcut.members.map decode
      constructor
      · rintro ⟨json', hjson, hkeys⟩ lc' hlc'
        obtain rfl := Option.some.inj hlc'
        obtain rfl := Option.some.inj (Option.some.inj hjson)
        refine ⟨hcut.closable_iff.mp hclosable, ?_⟩
        intro key hkey
        rw [hcut.membersBefore]
        exact (getObjectItem_eq_iff hfront key).mp (hkeys key hkey)
      · intro hclean
        refine ⟨_, rfl, ?_⟩
        intro key hkey
        apply (getObjectItem_eq_iff hfront key).mpr
        have hwanted := (hclean lc rfl).2 key hkey
        rwa [hcut.membersBefore] at hwanted
    · rw [hparse.refuses (hcut.not_isText hclosable)]
      constructor
      · rintro ⟨json', hjson, -⟩
        cases hjson
      · intro hclean
        exact absurd (hcut.closable_iff.mpr (hclean lc rfl).1) hclosable

/-! ### Documents of plain members -/

/-- A member with a plain name, and its value when that is a plain string or an object. -/
def plainMember (text : List Char) : List Char × JsonItem :=
  let name := (text.drop 1).takeWhile (· ≠ '"')
  match (text.drop (name.length + 3)).head? with
  | some '"' => (name, .string ((text.drop (name.length + 4)).takeWhile (· ≠ '"')))
  | _ => (name, .nested)

def parsePlain (text : List Char) : Option Json := (members text).map (·.map plainMember)

lemma standard_parsePlain : Standard parsePlain plainMember where
  parses := by
    intro text ms h
    rw [parsePlain, h, Option.map_some]
  refuses := by
    intro text h
    rw [parsePlain, Option.map_eq_none_iff, Option.eq_none_iff_forall_ne_some]
    intro ms hms
    obtain ⟨s, hs, haccepts, -⟩ := members_eq_some.mp hms
    rw [isText, hs, Option.any_some, haccepts] at h
    cases h

def telemetryText : List Char := '"' :: dcmT2JsonStr ++ ['"', ':', '{', '}']

def cronText : List Char := '"' :: dcmDifdCron ++ "\":\"0 3 * * *\"".toList

def urlText : List Char := '"' :: dcmLogUploadUrl ++ "\":\"https://logs\"".toList

/-- A document of members without blanks around them. -/
def plainDoc (ms : List (List Char)) : List Char := '{' :: [','].intercalate ms ++ ['}']

/-- The telemetry member at the end. -/
theorem settings_before_kept :
    KeepsSettings parsePlain (plainDoc [urlText, cronText, telemetryText])
      ([urlText, cronText, telemetryText].map plainMember) := by
  refine (keepsSettings_iff standard_parsePlain ⟨?_, ?_, ?_⟩).mpr ?_
  · decide +kernel
  · decide +kernel
  · decide +kernel
  · intro lc hlc
    obtain rfl : ('{' :: urlText ++ ',' :: cronText).length + 2 = lc := by
      rw [← Option.some.injEq, ← hlc]
      decide +kernel
    refine ⟨.inl ⟨'{' :: urlText ++ ',' :: cronText, ?_, ?_⟩, ?_⟩ <;> decide +kernel

/-- The telemetry member between two settings: the later one is lost. -/
theorem setting_behind_lost :
    Document (plainDoc [urlText, telemetryText, cronText]) [urlText, telemetryText, cronText] ∧
      ¬KeepsSettings parsePlain (plainDoc [urlText, telemetryText, cronText])
        ([urlText, telemetryText, cronText].map plainMember) := by
  refine ⟨⟨by decide +kernel, by decide +kernel, by decide +kernel⟩, ?_⟩
  rintro ⟨json', hjson, hkeys⟩
  have hcut : dcmSettingJsonInit parsePlain
      (some (plainDoc [urlText, telemetryText, cronText])) = some (some [plainMember urlText]) := by
    decide +kernel
  obtain rfl := Option.some.inj (Option.some.inj (hcut.symm.trans hjson))
  have hcron := hkeys dcmDifdCron (by decide +kernel)
  revert hcron
  decide +kernel

end DcmAgent.Daemon

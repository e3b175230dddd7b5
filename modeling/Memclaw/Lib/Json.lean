import Mathlib.Tactic.Common
import Memclaw.Lib.Binary64
import Memclaw.Lib.JsonDefs

/-! The text of a JSON value determines the value: every rendering is
self-delimiting in front of a comma, a closing bracket or the end. -/

namespace Memclaw.Lib.Json

open Binary64 (numberChars AllDigits allDigits_toDigits mem_numberChars_of_isDigit)

def hexValue (c : Char) : ℕ := if c.isDigit then c.toNat - 48 else c.toNat - 87

def unescape : List Char → Option (Char × List Char)
  | '\\' :: 'u' :: '0' :: '0' :: a :: b :: rest =>
    some (Char.ofNat (16 * hexValue a + hexValue b), rest)
  | '\\' :: 'n' :: rest => some ('\n', rest)
  | '\\' :: 'r' :: rest => some ('\r', rest)
  | '\\' :: 't' :: rest => some ('\t', rest)
  | '\\' :: 'f' :: rest => some (Char.ofNat 12, rest)
  | '\\' :: 'b' :: rest => some (Char.ofNat 8, rest)
  | '\\' :: c :: rest => some (c, rest)
  | c :: rest => some (c, rest)
  | [] => none

theorem hexValue_control : ∀ n < 32,
    16 * hexValue (Nat.digitChar (n / 16)) + hexValue (Nat.digitChar (n % 16)) = n := by
  decide

theorem eq_ofNat_of_toNat {c : Char} {n : ℕ} (h : c.toNat = n) : c = Char.ofNat n := by
  rw [← h, Char.ofNat_toNat]

theorem unescape_escapeChar (c : Char) (rest : List Char) :
    unescape (escapeChar c ++ rest) = some (c, rest) := by
  unfold escapeChar
  split_ifs with hq hb hn hr ht hf hbs hctl
  · subst hq; rfl
  · subst hb; rfl
  · subst hn; rfl
  · subst hr; rfl
  · subst ht; rfl
  · rw [eq_ofNat_of_toNat hf]; rfl
  · rw [eq_ofNat_of_toNat hbs]; rfl
  · simp only [List.cons_append, List.nil_append, unescape, hexValue_control _ hctl,
      Char.ofNat_toNat]
  · -- an unescaped character is not a backslash, so only the last arm reads it
    unfold unescape
    split <;> simp_all

theorem escapeChar_head_ne_quote (c : Char) (rest tail : List Char) :
    escapeChar c ++ rest ≠ '"' :: tail := by
  unfold escapeChar
  split_ifs with hq <;> simp [hq]

theorem escape_append_inj (cs ds : List Char) (r s : List Char)
    (h : escape cs ++ '"' :: r = escape ds ++ '"' :: s) : cs = ds ∧ r = s := by
  induction cs generalizing ds with
  | nil =>
    cases ds with
    | nil => simpa [escape] using h
    | cons d ds =>
      simp only [escape, List.flatMap_nil, List.nil_append, List.flatMap_cons,
        List.append_assoc] at h
      exact absurd h.symm (escapeChar_head_ne_quote _ _ _)
  | cons c cs ih =>
    cases ds with
    | nil =>
      simp only [escape, List.flatMap_nil, List.nil_append, List.flatMap_cons,
        List.append_assoc] at h
      exact absurd h (escapeChar_head_ne_quote _ _ _)
    | cons d ds =>
      simp only [escape, List.flatMap_cons, List.append_assoc] at h
      have hread := congrArg unescape h
      rw [unescape_escapeChar, unescape_escapeChar] at hread
      obtain ⟨hhead, hrest⟩ := Prod.mk.inj (Option.some.inj hread)
      obtain ⟨htail, hrs⟩ := ih ds hrest
      exact ⟨by rw [hhead, htail], hrs⟩

theorem quote_append_inj {k l : String} {r s : List Char}
    (h : quote k ++ r = quote l ++ s) : k = l ∧ r = s := by
  simp only [quote, List.cons_append, List.append_assoc, List.nil_append, List.cons.injEq,
    true_and] at h
  obtain ⟨hkl, hrs⟩ := escape_append_inj _ _ _ _ h
  exact ⟨String.toList_inj.mp hkl, hrs⟩

def Delimited (r : List Char) : Prop := ∀ c ∈ r.head?, c = ',' ∨ c = ']' ∨ c = '\x7d'

theorem delimited_cons {c : Char} {r : List Char} (h : c = ',' ∨ c = ']' ∨ c = '\x7d') :
    Delimited (c :: r) := by
  intro d hd
  obtain rfl : c = d := by simpa using hd
  exact h

def isAtom : Json → Bool
  | str _ => false
  | arr _ => false
  | obj _ => false
  | _ => true

def atomChars : List Char :=
  numberChars ++ ['n', 'u', 'l', 't', 'r', 'a', 's', 'f', 'I', 'i', 'y', 'N']

def readInt : List Char → Int
  | '-' :: ds => -(Nat.ofDigitChars 10 ds 0 : ℤ)
  | ds => Nat.ofDigitChars 10 ds 0

def readNumber (cs : List Char) : Option Json :=
  if '.' ∈ cs ∨ 'e' ∈ cs then (Binary64.ofText cs).map fun x => float (.finite x)
  else some (int (readInt cs))

def readAtom : List Char → Option Json
  | 'n' :: _ => some null
  | 't' :: _ => some (bool true)
  | 'f' :: _ => some (bool false)
  | 'N' :: _ => some (float .nan)
  | 'I' :: _ => some (float (.infinite false))
  | '-' :: 'I' :: _ => some (float (.infinite true))
  | cs => readNumber cs

theorem readAtom_number {cs : List Char} (h : ∀ c ∈ cs, c ∈ numberChars) :
    readAtom cs = readNumber cs := by
  unfold readAtom
  split
  all_goals first | rfl | exact absurd h (by simp [numberChars])

theorem renderInt_chars (i : ℤ) : ∀ c ∈ renderInt i, c ∈ numberChars := by
  intro c hc
  have hdigit : ∀ c ∈ Nat.toDigits 10 i.natAbs, c ∈ numberChars := fun c hc =>
    mem_numberChars_of_isDigit (allDigits_toDigits _ c hc)
  unfold renderInt at hc
  split_ifs at hc
  · rcases List.mem_cons.mp hc with rfl | hc
    · decide
    · exact hdigit c hc
  · exact hdigit c hc

theorem readInt_renderInt (i : ℤ) : readInt (renderInt i) = i := by
  unfold renderInt
  split_ifs with hneg
  · simp only [readInt, Nat.ofDigitChars_ten_toDigits]
    omega
  · have hsign : ∀ ds, Nat.toDigits 10 i.natAbs ≠ '-' :: ds := by
      intro ds heq
      have hminus : '-' ∈ Nat.toDigits 10 i.natAbs := by rw [heq]; exact List.mem_cons_self ..
      exact absurd hminus ((allDigits_toDigits _).notMem rfl)
    unfold readInt
    split
    · exact absurd ‹_› (hsign _)
    · rw [Nat.ofDigitChars_ten_toDigits]
      omega

theorem renderInt_no_mark (i : ℤ) : '.' ∉ renderInt i ∧ 'e' ∉ renderInt i := by
  have hpoint := (allDigits_toDigits i.natAbs).notMem (c := '.') rfl
  have hexp := (allDigits_toDigits i.natAbs).notMem (c := 'e') rfl
  unfold renderInt
  split_ifs <;> simp [hpoint, hexp]

theorem readAtom_render {a : Json} (ha : a.isAtom) : readAtom a.render = some a := by
  cases a with
  | null => rfl
  | bool b => cases b <;> rfl
  | int i =>
    rw [render, readAtom_number (renderInt_chars i), readNumber,
      if_neg (by simp [renderInt_no_mark i]), readInt_renderInt]
  | float x =>
    cases x with
    | finite x =>
      rw [render, renderFloat, readAtom_number (Binary64.repr_chars x), readNumber,
        if_pos (Binary64.repr_mark x), Binary64.ofText_repr]
      rfl
    | infinite neg => cases neg <;> rfl
    | nan => rfl
  | str s => cases ha
  | arr items => cases ha
  | obj fields => cases ha

theorem atomChars_of_all {cs : List Char} (h : cs.all (· ∈ atomChars) = true) :
    ∀ c ∈ cs, c ∈ atomChars := by
  simpa using h

theorem render_atom_chars {a : Json} (ha : a.isAtom) : ∀ c ∈ a.render, c ∈ atomChars := by
  cases a with
  | null => exact atomChars_of_all rfl
  | bool b => cases b <;> exact atomChars_of_all rfl
  | int i => exact fun c hc => List.mem_append_left _ (renderInt_chars i c hc)
  | float x =>
    cases x with
    | finite x => exact fun c hc => List.mem_append_left _ (Binary64.repr_chars x c hc)
    | infinite neg => cases neg <;> exact atomChars_of_all rfl
    | nan => exact atomChars_of_all rfl
  | str s => cases ha
  | arr items => cases ha
  | obj fields => cases ha

theorem takeWhile_atom {cs r : List Char} (hcs : ∀ c ∈ cs, c ∈ atomChars) (hr : Delimited r) :
    (cs ++ r).takeWhile (· ∈ atomChars) = cs := by
  have hstop : r.takeWhile (fun c => decide (c ∈ atomChars)) = [] := by
    cases r with
    | nil => rfl
    | cons c r =>
      obtain rfl | rfl | rfl := hr c rfl <;> rfl
  rw [List.takeWhile_append_of_pos (by simpa using hcs), hstop, List.append_nil]

inductive Shape
  | atom
  | string
  | array
  | object
deriving DecidableEq

def shape : Json → Shape
  | str _ => .string
  | arr _ => .array
  | obj _ => .object
  | _ => .atom

def shapeOfHead : List Char → Shape
  | '"' :: _ => .string
  | '[' :: _ => .array
  | '\x7b' :: _ => .object
  | _ => .atom

theorem shapeOfHead_atom {cs : List Char} (h : ∀ c ∈ cs, c ∈ atomChars) (hne : cs ≠ [])
    (r : List Char) : shapeOfHead (cs ++ r) = .atom := by
  cases cs with
  | nil => exact absurd rfl hne
  | cons c cs =>
    have hc := h c (List.mem_cons_self ..)
    rw [List.cons_append]
    unfold shapeOfHead
    split
    · exact absurd hc (by simp_all [atomChars, numberChars])
    · exact absurd hc (by simp_all [atomChars, numberChars])
    · exact absurd hc (by simp_all [atomChars, numberChars])
    · rfl

theorem render_atom_ne_nil {a : Json} (ha : a.isAtom) : a.render ≠ [] := by
  intro hnil
  have hread := readAtom_render ha
  rw [hnil] at hread
  have hzero : a = int 0 := (Option.some.inj hread).symm
  rw [hzero] at hnil
  exact absurd hnil (by decide)

theorem shapeOfHead_render (a : Json) (r : List Char) : shapeOfHead (a.render ++ r) = a.shape := by
  by_cases ha : a.isAtom
  · rw [shapeOfHead_atom (render_atom_chars ha) (render_atom_ne_nil ha)]
    cases a <;> first | rfl | cases ha
  · cases a with
    | str s => rfl
    | arr items => rfl
    | obj fields => rfl
    | null => exact absurd rfl ha
    | bool b => exact absurd rfl ha
    | int i => exact absurd rfl ha
    | float x => exact absurd rfl ha

theorem shape_eq_of_render {a b : Json} {r s : List Char} (h : a.render ++ r = b.render ++ s) :
    a.shape = b.shape := by
  rw [← shapeOfHead_render a r, h, shapeOfHead_render]

theorem render_atom_append_inj {a b : Json} (ha : a.isAtom) (hb : b.isAtom) {r s : List Char}
    (hr : Delimited r) (hs : Delimited s) (h : a.render ++ r = b.render ++ s) :
    a = b ∧ r = s := by
  have htext : a.render = b.render := by
    rw [← takeWhile_atom (render_atom_chars ha) hr, h,
      takeWhile_atom (render_atom_chars hb) hs]
  have hread : some a = some b := by
    rw [← readAtom_render ha, htext, readAtom_render hb]
  rw [htext] at h
  exact ⟨Option.some.inj hread, List.append_cancel_left h⟩

theorem isAtom_iff_shape (a : Json) : a.isAtom ↔ a.shape = .atom := by
  cases a <;> simp [isAtom, shape]

theorem delimited_renderMoreItems (js : List Json) (r : List Char) :
    Delimited (renderMoreItems js ++ r) := by
  cases js with
  | nil => exact delimited_cons (by decide)
  | cons j js => exact delimited_cons (by decide)

theorem delimited_renderMoreFields (fields : List (String × Json)) (r : List Char) :
    Delimited (renderMoreFields fields ++ r) := by
  rcases fields with _ | ⟨⟨k, j⟩, fields⟩
  · exact delimited_cons (by decide)
  · exact delimited_cons (by decide)

theorem render_ne_close (a : Json) (r s : List Char) : a.render ++ r ≠ ']' :: s := by
  intro h
  by_cases ha : a.isAtom
  · obtain ⟨c, cs, hcs⟩ := List.exists_cons_of_ne_nil (render_atom_ne_nil ha)
    have hc := render_atom_chars ha c (by rw [hcs]; exact List.mem_cons_self ..)
    rw [hcs, List.cons_append, List.cons.injEq] at h
    rw [h.1] at hc
    exact absurd hc (by decide)
  · cases a with
    | str s => simp [render, quote] at h
    | arr items => simp [render] at h
    | obj fields => simp [render] at h
    | null => exact ha rfl
    | bool b => exact ha rfl
    | int i => exact ha rfl
    | float x => exact ha rfl

mutual

theorem render_append_inj : ∀ (a b : Json) {r s : List Char}, Delimited r → Delimited s →
    a.render ++ r = b.render ++ s → a = b ∧ r = s
  | arr items, b, r, s, hr, hs, h => by
    have hshape := shape_eq_of_render h
    cases b with
    | arr items' =>
      simp only [render, List.cons_append, List.cons.injEq, true_and] at h
      obtain ⟨hitems, hrs⟩ := renderItems_append_inj items items' h
      exact ⟨by rw [hitems], hrs⟩
    | _ => cases hshape
  | obj fields, b, r, s, hr, hs, h => by
    have hshape := shape_eq_of_render h
    cases b with
    | obj fields' =>
      simp only [render, List.cons_append, List.cons.injEq, true_and] at h
      obtain ⟨hfields, hrs⟩ := renderFields_append_inj fields fields' h
      exact ⟨by rw [hfields], hrs⟩
    | _ => cases hshape
  | str k, b, r, s, hr, hs, h => by
    have hshape := shape_eq_of_render h
    cases b with
    | str l =>
      obtain ⟨hkl, hrs⟩ := quote_append_inj h
      exact ⟨by rw [hkl], hrs⟩
    | _ => cases hshape
  | null, b, r, s, hr, hs, h => by
    exact render_atom_append_inj rfl ((isAtom_iff_shape b).mpr (shape_eq_of_render h).symm) hr hs h
  | bool _, b, r, s, hr, hs, h => by
    exact render_atom_append_inj rfl ((isAtom_iff_shape b).mpr (shape_eq_of_render h).symm) hr hs h
  | int _, b, r, s, hr, hs, h => by
    exact render_atom_append_inj rfl ((isAtom_iff_shape b).mpr (shape_eq_of_render h).symm) hr hs h
  | float _, b, r, s, hr, hs, h => by
    exact render_atom_append_inj rfl ((isAtom_iff_shape b).mpr (shape_eq_of_render h).symm) hr hs h

theorem renderItems_append_inj : ∀ (js ks : List Json) {r s : List Char},
    renderItems js ++ r = renderItems ks ++ s → js = ks ∧ r = s
  | [], [], r, s, h => ⟨rfl, by simpa [renderItems] using h⟩
  | [], k :: ks, r, s, h => by
    simp only [renderItems, List.append_assoc] at h
    exact absurd h.symm (render_ne_close k _ _)
  | j :: js, [], r, s, h => by
    simp only [renderItems, List.append_assoc] at h
    exact absurd h (render_ne_close j _ _)
  | j :: js, k :: ks, r, s, h => by
    simp only [renderItems, List.append_assoc] at h
    obtain ⟨hjk, hmore⟩ := render_append_inj j k (delimited_renderMoreItems js r)
      (delimited_renderMoreItems ks s) h
    obtain ⟨hjs, hrs⟩ := renderMoreItems_append_inj js ks hmore
    exact ⟨by rw [hjk, hjs], hrs⟩

theorem renderMoreItems_append_inj : ∀ (js ks : List Json) {r s : List Char},
    renderMoreItems js ++ r = renderMoreItems ks ++ s → js = ks ∧ r = s
  | [], [], r, s, h => ⟨rfl, by simpa [renderMoreItems] using h⟩
  | [], k :: ks, r, s, h => by simp [renderMoreItems] at h
  | j :: js, [], r, s, h => by simp [renderMoreItems] at h
  | j :: js, k :: ks, r, s, h => by
    simp only [renderMoreItems, List.cons_append, List.append_assoc, List.cons.injEq,
      true_and] at h
    obtain ⟨hjk, hmore⟩ := render_append_inj j k (delimited_renderMoreItems js r)
      (delimited_renderMoreItems ks s) h
    obtain ⟨hjs, hrs⟩ := renderMoreItems_append_inj js ks hmore
    exact ⟨by rw [hjk, hjs], hrs⟩

theorem renderFields_append_inj : ∀ (fs gs : List (String × Json)) {r s : List Char},
    renderFields fs ++ r = renderFields gs ++ s → fs = gs ∧ r = s
  | [], [], r, s, h => ⟨rfl, by simpa [renderFields] using h⟩
  | [], (l, k) :: gs, r, s, h => by simp [renderFields, quote] at h
  | (l, j) :: fs, [], r, s, h => by simp [renderFields, quote] at h
  | (l, j) :: fs, (m, k) :: gs, r, s, h => by
    simp only [renderFields, List.cons_append, List.append_assoc] at h
    obtain ⟨hlm, hvalue⟩ := quote_append_inj h
    obtain ⟨hjk, hmore⟩ := render_append_inj j k (delimited_renderMoreFields fs r)
      (delimited_renderMoreFields gs s) (List.cons.inj hvalue).2
    obtain ⟨hfs, hrs⟩ := renderMoreFields_append_inj fs gs hmore
    exact ⟨by rw [hlm, hjk, hfs], hrs⟩

theorem renderMoreFields_append_inj : ∀ (fs gs : List (String × Json)) {r s : List Char},
    renderMoreFields fs ++ r = renderMoreFields gs ++ s → fs = gs ∧ r = s
  | [], [], r, s, h => ⟨rfl, by simpa [renderMoreFields] using h⟩
  | [], (l, k) :: gs, r, s, h => by simp [renderMoreFields] at h
  | (l, j) :: fs, [], r, s, h => by simp [renderMoreFields] at h
  | (l, j) :: fs, (m, k) :: gs, r, s, h => by
    simp only [renderMoreFields, List.cons_append, List.append_assoc, List.cons.injEq,
      true_and] at h
    obtain ⟨hlm, hvalue⟩ := quote_append_inj h
    obtain ⟨hjk, hmore⟩ := render_append_inj j k (delimited_renderMoreFields fs r)
      (delimited_renderMoreFields gs s) (List.cons.inj hvalue).2
    obtain ⟨hfs, hrs⟩ := renderMoreFields_append_inj fs gs hmore
    exact ⟨by rw [hlm, hjk, hfs], hrs⟩

end

theorem render_injective : Function.Injective render := by
  intro a b h
  have hnil : Delimited [] := by simp [Delimited]
  exact (render_append_inj a b hnil hnil (by rw [h])).1

mutual

theorem mapFloats_mapFloats (f g : PyFloat → Json) : ∀ j : Json,
    (j.mapFloats f).mapFloats g = j.mapFloats fun x => (f x).mapFloats g
  | float x => rfl
  | arr items => by rw [mapFloats, mapFloats, mapFloats, mapFloatItems_mapFloatItems f g items]
  | obj fields => by
    rw [mapFloats, mapFloats, mapFloats, mapFloatFields_mapFloatFields f g fields]
  | null => rfl
  | bool _ => rfl
  | int _ => rfl
  | str _ => rfl

theorem mapFloatItems_mapFloatItems (f g : PyFloat → Json) : ∀ js : List Json,
    mapFloatItems g (mapFloatItems f js) = mapFloatItems (fun x => (f x).mapFloats g) js
  | [] => rfl
  | j :: js => by
    simp only [mapFloatItems, mapFloats_mapFloats f g j, mapFloatItems_mapFloatItems f g js]

theorem mapFloatFields_mapFloatFields (f g : PyFloat → Json) : ∀ fields : List (String × Json),
    mapFloatFields g (mapFloatFields f fields) = mapFloatFields (fun x => (f x).mapFloats g) fields
  | [] => rfl
  | (k, j) :: fields => by
    simp only [mapFloatFields, mapFloats_mapFloats f g j, mapFloatFields_mapFloatFields f g fields]

end

mutual

theorem mapFloats_congr {f g : PyFloat → Json} : ∀ j : Json, (∀ x ∈ j.floatLeaves, f x = g x) →
    j.mapFloats f = j.mapFloats g
  | float x, h => h x (by simp [floatLeaves])
  | arr items, h => by rw [mapFloats, mapFloats, mapFloatItems_congr items h]
  | obj fields, h => by rw [mapFloats, mapFloats, mapFloatFields_congr fields h]
  | null, _ => rfl
  | bool _, _ => rfl
  | int _, _ => rfl
  | str _, _ => rfl

theorem mapFloatItems_congr {f g : PyFloat → Json} : ∀ js : List Json,
    (∀ x ∈ floatLeavesItems js, f x = g x) → mapFloatItems f js = mapFloatItems g js
  | [], _ => rfl
  | j :: js, h => by
    rw [mapFloatItems, mapFloatItems,
      mapFloats_congr j fun x hx => h x (by simp [floatLeavesItems, hx]),
      mapFloatItems_congr js fun x hx => h x (by simp [floatLeavesItems, hx])]

theorem mapFloatFields_congr {f g : PyFloat → Json} : ∀ fields : List (String × Json),
    (∀ x ∈ floatLeavesFields fields, f x = g x) → mapFloatFields f fields = mapFloatFields g fields
  | [], _ => rfl
  | (k, j) :: fields, h => by
    rw [mapFloatFields, mapFloatFields,
      mapFloats_congr j fun x hx => h x (by simp [floatLeavesFields, hx]),
      mapFloatFields_congr fields fun x hx => h x (by simp [floatLeavesFields, hx])]

end

theorem mapFloatFields_insertByKey (f : PyFloat → Json) (k : String) (j : Json)
    (fields : List (String × Json)) :
    mapFloatFields f (insertByKey (k, j) fields) =
      insertByKey (k, j.mapFloats f) (mapFloatFields f fields) := by
  induction fields with
  | nil => rfl
  | cons field fields ih =>
    obtain ⟨l, i⟩ := field
    simp only [insertByKey, mapFloatFields]
    split_ifs with hlt
    · rw [mapFloatFields, ih]
    · rw [mapFloatFields, mapFloatFields]

mutual

theorem sortKeys_mapFloats {f : PyFloat → Json} (hf : ∀ x, (f x).sortKeys = f x) : ∀ j : Json,
    (j.mapFloats f).sortKeys = j.sortKeys.mapFloats f
  | float x => hf x
  | arr items => by simp only [mapFloats, sortKeys, sortItems_mapFloatItems hf items]
  | obj fields => by simp only [mapFloats, sortKeys, sortFields_mapFloatFields hf fields]
  | null => rfl
  | bool _ => rfl
  | int _ => rfl
  | str _ => rfl

theorem sortItems_mapFloatItems {f : PyFloat → Json} (hf : ∀ x, (f x).sortKeys = f x) :
    ∀ js : List Json, sortItems (mapFloatItems f js) = mapFloatItems f (sortItems js)
  | [] => rfl
  | j :: js => by
    simp only [mapFloatItems, sortItems, sortKeys_mapFloats hf j, sortItems_mapFloatItems hf js]

theorem sortFields_mapFloatFields {f : PyFloat → Json} (hf : ∀ x, (f x).sortKeys = f x) :
    ∀ fields : List (String × Json),
      sortFields (mapFloatFields f fields) = mapFloatFields f (sortFields fields)
  | [] => rfl
  | (k, j) :: fields => by
    simp only [mapFloatFields, sortFields, sortKeys_mapFloats hf j,
      sortFields_mapFloatFields hf fields, mapFloatFields_insertByKey]

end

end Memclaw.Lib.Json

namespace Memclaw.Lib

theorem encodeUtf8_injective : Function.Injective encodeUtf8 := by
  intro cs ds h
  have hbytes : cs.utf8Encode = ds.utf8Encode := by
    simp only [List.utf8Encode, encodeUtf8] at h ⊢
    rw [h]
  have hstr : (String.ofList cs).toByteArray = (String.ofList ds).toByteArray := by
    simpa using hbytes
  simpa using congrArg String.toList (String.toByteArray_inj.mp hstr)

end Memclaw.Lib

import Nestor.S3.Routes

/-!
# The keys of a `Delete` document

A key is written as text, references and CDATA sections. Of these the text is read without the
blanks at its ends, and the CDATA sections are not read at all, so a key comes back as it was
written only if it needs neither.
-/

namespace Nestor.S3

open Lib

/-! ## Documents -/

/-- The white space of XML. -/
def xmlBlanks : List Bytes := [[0x20], [0x09], [0x0A], [0x0D]]

/-- A part of what stands in an element, with what it stands for. -/
inductive Segment where
  | text (content : Bytes)
  | charRef (char : Bytes)
  | entity (replacement : Bytes)
  | cdata (content : Bytes)
  /-- A comment or a processing instruction. -/
  | remark
deriving DecidableEq

namespace Segment

def content : Segment → Bytes
  | .text content | .charRef content | .entity content | .cdata content => content
  | .remark => []

def isText : Segment → Bool
  | .text _ => true
  | _ => false

/-- What `quick_xml` reads: text is trimmed, and left out if nothing is left of it. -/
def events : Segment → List XmlEvent
  | .text content => if trim xmlBlanks content = [] then [] else [.text (trim xmlBlanks content)]
  | .charRef char => [.generalRef (some char) none]
  | .entity replacement => [.generalRef none (some replacement)]
  | .cdata _ | .remark => [.other]

/-- The segment is read as it stands. -/
def Plain : Segment → Prop
  | .text content => trim xmlBlanks content = content
  | .cdata content => content = []
  | _ => True

instance : DecidablePred Plain
  | .text _ | .cdata _ => inferInstanceAs (Decidable (_ = _))
  | .charRef _ | .entity _ | .remark => isTrue trivial

end Segment

/-- What an element contains. Text goes on up to the next markup. -/
structure Content where
  segments : List Segment
  separate : segments.IsChain fun a b => ¬ (a.isText ∧ b.isText)

def Content.value (c : Content) : Bytes := c.segments.flatMap Segment.content

/-- A part of the document: an element that names a key, the tags of another element, or something
that stands in one. -/
inductive Item where
  | key (content : Content)
  | start (localName : Bytes) (h : localName ≠ ascii "Key")
  | stop (localName : Bytes) (h : localName ≠ ascii "Key")
  | segment (s : Segment)

namespace Item

def events : Item → List XmlEvent
  | .key content => .start (ascii "Key") :: (content.segments.flatMap Segment.events ++ [.stop (ascii "Key")])
  | .start name _ => [.start name]
  | .stop name _ => [.stop name]
  | .segment s => s.events

def keys : Item → List Content
  | .key content => [content]
  | _ => []

end Item

abbrev Document := List Item

def Document.events (doc : Document) : List XmlEvent := doc.flatMap Item.events

/-- The contents of its `Key` elements, in order. -/
def Document.keys (doc : Document) : List Content := doc.flatMap Item.keys

/-! ## What is read of them -/

/-- What is read of a segment. -/
def Segment.read : Segment → Bytes
  | .text content => trim xmlBlanks content
  | .charRef content | .entity content => content
  | .cdata _ | .remark => []

def Content.read (c : Content) : Bytes := c.segments.flatMap Segment.read

section

variable {keys : List Bytes} {key : Bytes}

theorem fold_segment (s : Segment) (current : Option Bytes) :
    s.events.foldl deleteKeysStep (keys, current) = (keys, current.map (· ++ s.read)) := by
  cases s with
  | text content =>
      by_cases hnil : trim xmlBlanks content = []
      · simp [Segment.events, Segment.read, hnil]
      · rw [Segment.events, if_neg hnil]
        rfl
  | charRef char => rfl
  | entity replacement => rfl
  | cdata content => simp [Segment.events, Segment.read, deleteKeysStep]
  | remark => simp [Segment.events, Segment.read, deleteKeysStep]

theorem fold_segments (ss : List Segment) :
    (ss.flatMap Segment.events).foldl deleteKeysStep (keys, some key) =
      (keys, some (key ++ ss.flatMap Segment.read)) := by
  induction ss generalizing key with
  | nil => simp
  | cons s ss ih =>
      rw [List.flatMap_cons, List.foldl_append, fold_segment, Option.map_some, ih, List.flatMap_cons,
        List.append_assoc]

theorem fold_item (i : Item) :
    i.events.foldl deleteKeysStep (keys, none) = (keys ++ i.keys.map Content.read, none) := by
  cases i with
  | key content =>
      unfold Item.events
      rw [List.foldl_cons, List.foldl_append]
      have hstart : deleteKeysStep (keys, none) (.start (ascii "Key")) = (keys, some []) := rfl
      rw [hstart, fold_segments]
      rfl
  | start name h => simp [Item.events, Item.keys, deleteKeysStep, h]
  | stop name h => simp [Item.events, Item.keys, deleteKeysStep, h]
  | segment s =>
      have hkeys : (Item.segment s).keys = [] := rfl
      rw [Item.events, fold_segment, Option.map_none, hkeys, List.map_nil, List.append_nil]

theorem fold_document (doc : Document) :
    doc.events.foldl deleteKeysStep (keys, none) = (keys ++ doc.keys.map Content.read, none) := by
  induction doc generalizing keys with
  | nil => simp [Document.events, Document.keys]
  | cons i doc ih =>
      unfold Document.events Document.keys at ih ⊢
      rw [List.flatMap_cons, List.foldl_append, fold_item, ih, List.flatMap_cons, List.map_append,
        List.append_assoc]

end

/-! ## When they come back -/

theorem read_sublist (s : Segment) : s.read.Sublist s.content := by
  cases s with
  | text content => exact trim_sublist _ _
  | charRef char => exact List.Sublist.refl _
  | entity replacement => exact List.Sublist.refl _
  | cdata content => exact List.nil_sublist _
  | remark => exact List.nil_sublist _

theorem read_eq_iff (s : Segment) : s.read = s.content ↔ s.Plain := by
  cases s with
  | text content => rfl
  | charRef char => exact iff_of_true rfl trivial
  | entity replacement => exact iff_of_true rfl trivial
  | cdata content => exact eq_comm
  | remark => exact iff_of_true rfl trivial

theorem read_segments_sublist (ss : List Segment) :
    (ss.flatMap Segment.read).Sublist (ss.flatMap Segment.content) := by
  induction ss with
  | nil => exact List.Sublist.refl _
  | cons s ss ih =>
      rw [List.flatMap_cons, List.flatMap_cons]
      exact (read_sublist s).append ih

/-- Nothing makes up for what is lost of a segment. -/
theorem read_segments_eq_iff (ss : List Segment) :
    ss.flatMap Segment.read = ss.flatMap Segment.content ↔ ∀ s ∈ ss, s.Plain := by
  induction ss with
  | nil => simp
  | cons s ss ih =>
      rw [List.flatMap_cons, List.flatMap_cons, List.forall_mem_cons, ← ih, ← read_eq_iff]
      constructor
      · intro h
        have hrest := read_segments_sublist ss
        have hlen := congrArg List.length h
        have hs := (read_sublist s).length_le
        have hss := hrest.length_le
        rw [List.length_append, List.length_append] at hlen
        exact ⟨(read_sublist s).eq_of_length (by omega), hrest.eq_of_length (by omega)⟩
      · rintro ⟨h, h'⟩
        rw [h, h']

/-- The keys of a document come back as they were written if and only if no text in them starts or
ends with white space and no CDATA section in them contains anything. -/
theorem deleteKeys_iff [XmlReader] {xml : Bytes} {doc : Document}
    (hread : XmlReader.events xml = doc.events) :
    deleteKeys xml = doc.keys.map Content.value ↔ ∀ c ∈ doc.keys, ∀ s ∈ c.segments, s.Plain := by
  rw [deleteKeys, hread, fold_document, List.nil_append]
  simp only [List.map_inj_left, Content.read, Content.value, read_segments_eq_iff]

/-- `<Delete><Object><Key>a&amp;b</Key></Object></Delete>`. -/
def plainDocument : Document :=
  [.start (ascii "Delete") (by decide), .start (ascii "Object") (by decide),
    .key ⟨[.text (ascii "a"), .entity (ascii "&"), .text (ascii "b")], by decide⟩,
    .stop (ascii "Object") (by decide), .stop (ascii "Delete") (by decide)]

theorem deleteKeys_plainDocument : @deleteKeys ⟨fun _ => plainDocument.events⟩
    (ascii "<Delete><Object><Key>a&amp;b</Key></Object></Delete>") = [ascii "a&b"] :=
  (@deleteKeys_iff ⟨fun _ => plainDocument.events⟩ _ plainDocument rfl).mpr (by decide)

/-- `<Key>a &amp; b</Key>`. -/
def spacedDocument : Document :=
  [.key ⟨[.text (ascii "a "), .entity (ascii "&"), .text (ascii " b")], by decide⟩]

/-- `<Key><![CDATA[a&b]]></Key>`. -/
def cdataDocument : Document := [.key ⟨[.cdata (ascii "a&b")], by decide⟩]

/-- Blanks around a reference are lost, and so is a CDATA section. -/
theorem deleteKeys_loses :
    spacedDocument.keys.map Content.value = [ascii "a & b"] ∧
      @deleteKeys ⟨fun _ => spacedDocument.events⟩ (ascii "<Key>a &amp; b</Key>") = [ascii "a&b"] ∧
    cdataDocument.keys.map Content.value = [ascii "a&b"] ∧
      @deleteKeys ⟨fun _ => cdataDocument.events⟩ (ascii "<Key><![CDATA[a&b]]></Key>") = [[]] := by
  refine ⟨by decide, by decide, by decide, by decide⟩

end Nestor.S3

import Mathlib
import GuidedDecoding.Proofs.Schema.Wording

open scoped Computability

namespace GuidedDecoding

open Fragment (Sequence denotesSequence)
open JsonSyntax (isSpace texts)

theorem SchemaSettings.words_json {settings : SchemaSettings} (surrounded : settings.Surrounded) :
    settings.Words fun _ => JsonSyntax.wording where
  layout depth := (settings.proper_layout surrounded depth).words
  deeper _ := rfl
  common := {
    scalar := by
      rintro _ ⟨_, rfl⟩
      exact fun _ scalar => .scalar scalar
    nested := by
      rintro _ ⟨depth, rfl⟩
      exact ⟨_, (settings.proper_inlineLayout surrounded).words, rfl, depth, rfl⟩ }
  text _ value := value.derives_text isSpace

namespace Conversion

section

variable {settings : SchemaSettings} {json : Json} {s : State}

namespace Complete

variable (complete : Complete settings json s) (surrounded : settings.Surrounded)
include surrounded complete

theorem body_le_json {depth : Nat} {schema : Schema} {body : Sequence} (renders : Renders settings s depth schema body) :
    denotesSequence (s.texts settings) body ≤ texts isSpace .value :=
  (complete.placed (SchemaSettings.words_json surrounded)).body_le complete.distinct renders trivial

theorem any_le_json : s.texts settings "basic_any" ≤ texts isSpace .value :=
  (complete.placed (SchemaSettings.words_json surrounded)).any_le complete.distinct 0

end Complete

end

end Conversion

end GuidedDecoding

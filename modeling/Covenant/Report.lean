import Covenant.Weaving

/-! # Reports — what was woven, with digests

    A report lists the wrappers and the rejected declarations of a source, and
    digests of the source and of the generated text. -/

namespace Covenant.Report

open Document Weaving Wrapper Value

/-- The version of the layout of a report. -/
def schemaVersion : String := "1.0.0"

/-- What made the report. -/
def generatorVersion : String := "contractweave-0.1.0"

/-- A generated file with the digest of its text, if it could be read. -/
structure Artifact where
  file : String
  digest : Option String

/-- A wrapper in a report. -/
def wrapperJson (d : Descriptor Datum) : Json :=
  .obj [
    ("qualname", .str d.qualname),
    ("internal_name", .str d.internalName),
    ("role", .str d.role.text),
    ("is_async", .bool d.isAsync),
    ("steps", Json.ofTexts (d.steps.map Step.text)),
    ("captured_fields", Json.ofTexts d.capturedFields),
    ("fingerprint", .str d.fingerprint)]

/-- A rejected declaration in a report. -/
def errorJson (e : GenerationError) : Json :=
  .obj ([
    ("kind", .str e.kind),
    ("message", .str e.message),
    ("type", Json.ofOption e.typeName),
    ("callable", Json.ofOption e.callableName),
    ("clause", Json.ofOption e.clause)]
    ++ match e.cause with
      | .placement fault => [("rule", .str fault.rule)]
      | _ => [])

/-- The fields for a generated file. -/
def artifactFields (sourceDigest : Option String) (a : Artifact) : List (String × Json) :=
  [("generated_file", .str a.file), ("generated_hash", Json.ofOption a.digest)]
    ++ match sourceDigest, a.digest with
      | some s, some g => [("combined_hash", .str (Digest.combined [s, g]))]
      | _, _ => []

/-- A report, without the time at which it was made. -/
def make (sourceFile : String) (sourceText : Option String) (artifact : Option Artifact)
    (r : Result Datum) : Json :=
  let sourceDigest := sourceText.map Digest.ofText
  .obj ([
    ("schema_version", .str schemaVersion),
    ("metadata", .obj [
      ("source_file", .str sourceFile),
      ("source_hash", Json.ofOption sourceDigest),
      ("generator_version", .str generatorVersion)]),
    ("summary", .obj [
      ("wrappers", .int r.descriptors.length),
      ("rejected", .int r.errors.length),
      ("ok", .bool r.ok)]),
    ("wrappers", .arr (r.descriptors.map wrapperJson)),
    ("errors", .arr (r.errors.map errorJson))]
    ++ match artifact with
      | some a => [("artifacts", .obj (artifactFields sourceDigest a))]
      | none => [])

end Covenant.Report

import JavaAtlas.Record.Codec
import JavaAtlas.Symbols.Basic

/-!
# The layout of stored records

A record has the schema version, the time of writing, the path key, the fingerprint and the payload.
The payload of the index is the symbols of a file, field by field in the order of their declaration.
-/

namespace JavaAtlas

set_option autoImplicit false

namespace Codec

/-- Two offsets, the first not behind the second. -/
def span : Codec Span :=
  via (pair u32 u32) (fun s => (UInt32.ofNat s.start, UInt32.ofNat s.stop))
    fun p => Span.mk? p.1.toNat p.2.toNat

def path : Codec Path := via text (·.spelling) fun s => some ⟨s⟩

def symbol : Codec Symbol :=
  via
    (pair text <| pair text <| pair named <| pair (option named) <| pair path <|
      pair span <| pair span <| pair text <| pair (option text) u32)
    (fun s => (s.fqn, s.name, s.kind, s.typeKind, s.path, s.span, s.nameSpan, s.signature,
      s.container, s.ordinal))
    fun (fqn, name, kind, typeKind, path, span, nameSpan, signature, container, ordinal) =>
      some { fqn, name, kind, typeKind, path, span, nameSpan, signature, container, ordinal }

def reference : Codec Reference :=
  via (pair text span) (fun r => (r.target, r.span)) fun (target, span) => some { target, span }

def callReference : Codec CallReference :=
  via (pair text <| pair span (option text)) (fun c => (c.name, c.span, c.enclosing))
    fun (name, span, enclosing) => some { name, span, enclosing }

def supertypeEdge : Codec SupertypeEdge :=
  via (pair text <| pair text bool) (fun e => (e.subtype, e.supertype, e.resolved))
    fun (subtype, supertype, resolved) => some { subtype, supertype, resolved }

def scope : Codec Scope :=
  via (pair named span) (fun s => (s.kind, s.span)) fun (kind, span) => some { kind, span }

def diagnostic : Codec Diagnostic :=
  via (pair named <| pair named <| pair span text)
    (fun d => (d.kind, d.severity, d.span, d.message))
    fun (kind, severity, span, message) => some { kind, severity, span, message }

def fileSymbols : Codec FileSymbols :=
  via
    (pair (option text) <| pair (list symbol) <| pair (list reference) <|
      pair (list callReference) <| pair (list text) <| pair (list supertypeEdge) <|
        pair (list scope) <| pair (list diagnostic) bool)
    (fun f => (f.package, f.symbols, f.references, f.calls, f.unresolved, f.supertypes, f.scopes,
      f.diagnostics, f.attributed))
    fun (package, symbols, references, calls, unresolved, supertypes, scopes, diagnostics,
        attributed) =>
      some { package, symbols, references, calls, unresolved, supertypes, scopes, diagnostics,
             attributed }

def fingerprint : Codec Fingerprint := via text (·.hex) fun s => some ⟨s⟩

end Codec

structure StoredRecord (α : Type) where
  schema : UInt32
  savedAt : UInt64
  key : String
  fingerprint : Fingerprint
  payload : α

def StoredRecord.codec {α : Type} (payload : Codec α) : Codec (StoredRecord α) :=
  .via (.pair .u32 <| .pair .u64 <| .pair .text <| .pair .fingerprint payload)
    (fun r => (r.schema, r.savedAt, r.key, r.fingerprint, r.payload))
    fun (schema, savedAt, key, fingerprint, payload) =>
      some { schema, savedAt, key, fingerprint, payload }

end JavaAtlas

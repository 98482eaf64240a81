import ZkCredVega.Circuit.Logic
import ZkCredVega.Circuit.Synthesis
import ZkCredVega.Circuit.Trace
import ZkCredVega.Bellpepper
import ZkCredVega.Circuit.Radix
import ZkCredVega.OnehotCursor
import ZkCredVega.OffsetBind.Select
import ZkCredVega.OffsetBind.Offset
import ZkCredVega.OffsetBind.Region
import ZkCredVega.OffsetBind.Namespace
import ZkCredVega.Circuit.Lucas
import ZkCredVega.P256
import ZkCredVega.Sha256
import ZkCredVega.Sha256Var
import ZkCredVega.Sha256Mc
import ZkCredVega.MdocAge.Folded
import ZkCredVega.Claims.Basic
import ZkCredVega.Claims.DigestId
import ZkCredVega.Claims.Step
import ZkCredVega.Claims.Core
import ZkCredVega.Claims.Binding
import ZkCredVega.MdocAge.PublicValues
import ZkCredVega.Ecc.GadgetUtils
import ZkCredVega.Ecc.Point
import ZkCredVega.Ecc.ScalarMul
import ZkCredVega.Ecc.Generator
import ZkCredVega.Nonnative.BigNat
import ZkCredVega.Nonnative.Carry
import ZkCredVega.Nonnative.MultMod
import ZkCredVega.Nonnative.Decompose
import ZkCredVega.Ecc.Ecdsa
import ZkCredVega.Ecc.Ladder
import ZkCredVega.Ecc.SignaturePanics
import ZkCredVega.Nym.Gadgets
import ZkCredVega.Nym.Rules
import ZkCredVega.Nym.Values
import ZkCredVega.Sha256Native
import ZkCredVega.Nym.Presentation
import ZkCredVega.Nym.Statement
import ZkCredVega.Calendar
import ZkCredVega.Nym.Dates
import ZkCredVega.Nym.Request
import ZkCredVega.Nym.Validity
import ZkCredVega.Nym.Table
import ZkCredVega.Nym.Window
import ZkCredVega.Nym.Step
import ZkCredVega.Nym.Chain
import ZkCredVega.Nym.MdocWitness
import ZkCredVega.Nym.Points
import ZkCredVega.Nym.Ecdsa
import ZkCredVega.Nym.Pseudonym
import ZkCredVega.Nym.Cbor
import ZkCredVega.Nym.IssuerSigned
import ZkCredVega.Nym.Challenge
import ZkCredVega.Nym.StoredShape
import ZkCredVega.Claims.CborUint
import ZkCredVega.Claims.SigStructure
import ZkCredVega.Claims.Splice
import ZkCredVega.Claims.Structure
import ZkCredVega.Claims.Signature
import ZkCredVega.Claims.Framing
import ZkCredVega.Claims.Digests
import ZkCredVega.Claims.NoPanic
import ZkCredVega.Claims.Frontends
import ZkCredVega.Claims.Outcome
import ZkCredVega.OffsetBind.Anchor
import ZkCredVega.OffsetBind.Walk
import ZkCredVega.MdocAge.Session
import ZkCredVega.MdocAge.BirthDate
import ZkCredVega.MdocAge.IssuerSignedItem
import ZkCredVega.MdocAge.Imitation
import ZkCredVega.Circuit.Shape
import ZkCredVega.Nym.MdocCore
import ZkCredVega.Nym.Shape
import ZkCredVega.Nym.Size
import ZkCredVega.Nym.CoreSound
import ZkCredVega.Circuit.Record
import ZkCredVega.Nym.Exact
import ZkCredVega.Nym.CoreExact
import ZkCredVega.Nym.App

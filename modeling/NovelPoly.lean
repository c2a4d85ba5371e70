import NovelPoly.Basic
import NovelPoly.Local
import NovelPoly.Transform
import NovelPoly.Walsh
import NovelPoly.Hadamard
import NovelPoly.Setup
import NovelPoly.Decode
import NovelPoly.Field.Span
import NovelPoly.Field.Poly
import NovelPoly.Field.Symbol
import NovelPoly.Field.Tables
import NovelPoly.InitDec
import NovelPoly.Locator
import NovelPoly.Bounds
import NovelPoly.Basis
import NovelPoly.Skew
import NovelPoly.Evaluate
import NovelPoly.Interpolate
import NovelPoly.Encode
import NovelPoly.Derivative
import NovelPoly.Sandwich
import NovelPoly.Reorder
import NovelPoly.Decoder
import NovelPoly.Roundtrip
import NovelPoly.Code
import NovelPoly.SetupState

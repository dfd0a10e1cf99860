import Pictogram.Text.Basic
import Pictogram.Text.Blank
import Pictogram.Text.Quoted
import Pictogram.Text.Utf8
import Pictogram.Text.Table
import Pictogram.Decimal.Binary
import Pictogram.Decimal.Shortest
import Pictogram.Decimal.Numeral
import Pictogram.Decimal.Layout
import Pictogram.Fault
import Pictogram.Plane
import Pictogram.Paint
import Pictogram.Outline
import Pictogram.Path.Command
import Pictogram.Path.Trace
import Pictogram.Figure
import Pictogram.Style
import Pictogram.Sketch
import Pictogram.Picture.Basic
import Pictogram.Markup.Cursor
import Pictogram.Markup.Reference
import Pictogram.Markup.Token
import Pictogram.Markup.Tag
import Pictogram.Markup.Reader
import Pictogram.Picture.Compile
import Pictogram.Host.Basic
import Pictogram.Host.Recorder
import Pictogram.Host.Canvas
import Pictogram.Script.Statement
import Pictogram.Script.Module
import Pictogram.Json
import Pictogram.Disk.Path
import Pictogram.Disk.Basic
import Pictogram.Disk.Wildcard
import Pictogram.Disk.Expand
import Pictogram.Picture.Json
import Pictogram.CommandLine.Batch
import Pictogram.CommandLine.Options
import Pictogram.CommandLine.Run
import Pictogram.CommandLine.Places
import Pictogram.Main
import Pictogram.Proofs.Markup.Nesting
import Pictogram.Proofs.Markup.Tree
import Pictogram.Proofs.Picture.Meaning
import Pictogram.Proofs.Decimal.Munch
import Pictogram.Proofs.Path.Grammar
import Pictogram.Proofs.Path.Plotter
import Pictogram.Proofs.Plane.NumberLists
import Pictogram.Proofs.Markup.Escaping
import Pictogram.Proofs.Markup.SinglePass
import Pictogram.Proofs.Markup.Source
import Pictogram.Proofs.Markup.TagReading
import Pictogram.Proofs.Markup.Scoping
import Pictogram.Proofs.Markup.RoundTrip
import Pictogram.Proofs.Script.Lexeme
import Pictogram.Proofs.Script.Piece
import Pictogram.Proofs.Script.Reading
import Pictogram.Proofs.Script.Drawing
import Pictogram.Proofs.Script.Names
import Pictogram.Proofs.Host.Transforms
import Pictogram.Proofs.Host.Canvas
import Pictogram.Proofs.Markup.Travel
import Pictogram.Proofs.Text.Search
import Pictogram.Proofs.Markup.Extent
import Pictogram.Proofs.Markup.Session
import Pictogram.Proofs.Picture.Blame
import Pictogram.Proofs.Markup.Progress
import Pictogram.Proofs.Markup.Locality
import Pictogram.Proofs.Markup.BrokenTag
import Pictogram.Proofs.Markup.Truncation
import Pictogram.Proofs.Picture.RootElement
import Pictogram.Proofs.Picture.Truncation
import Pictogram.Proofs.Disk.Writing
import Pictogram.Proofs.CommandLine.Outcome
import Pictogram.Proofs.CommandLine.Batches
import Pictogram.Proofs.CommandLine.Items
import Pictogram.Proofs.Decimal.Double
import Pictogram.Proofs.Decimal.Spelling
import Pictogram.Proofs.Path.RoundTrip
import Pictogram.Proofs.Decimal.Rounding
import Pictogram.Proofs.Decimal.Shortest
import Pictogram.Proofs.Path.Splitting
import Pictogram.Proofs.Sketch.PathSteps
import Pictogram.Proofs.Figure.Vertices
import Pictogram.Proofs.Markup.Skipping
import Pictogram.Proofs.Host.Saves
import Pictogram.Proofs.Markup.Placeless
import Pictogram.Proofs.Markup.Comments
import Pictogram.Proofs.Disk.Matching
import Pictogram.Proofs.Disk.Expansion
import Pictogram.Proofs.Decimal.Packing
import Pictogram.Proofs.Disk.Listing
import Pictogram.Proofs.Picture.Documents
import Pictogram.Proofs.Figure.Outlines
import Pictogram.Proofs.Paint.Channels
import Pictogram.Proofs.Picture.Drawing
import Pictogram.Proofs.Text.Quoted
import Pictogram.Proofs.Json.Reading
import Pictogram.Proofs.CommandLine.JsonOutput
import Pictogram.Proofs.Decimal.Nearest
import Pictogram.Proofs.Decimal.Pattern
import Pictogram.Proofs.Paint.Css
import Pictogram.Proofs.Sketch.Primitives
import Pictogram.Proofs.Sketch.Runs
import Pictogram.Proofs.Picture.Scopes
import Pictogram.Proofs.Disk.PatternText
import Pictogram.Proofs.Paint.Words

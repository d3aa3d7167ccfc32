import TinyFramework.Vfs.Poly1305Correct
import TinyFramework.Vfs.Bundle
import TinyFramework.Html5.OpenStack
import TinyFramework.Html5.Tables
import TinyFramework.Canvas.Transform
import TinyFramework.Cdp.NodeIds
import TinyFramework.Style.Transition
import TinyFramework.Dom.PseudoOwnership
import TinyFramework.App.MainLoop
import TinyFramework.Dom.HtmlRoundTrip
import TinyFramework.Text.LineAgreement
import TinyFramework.Text.BidiLevels
import TinyFramework.Events.DispatchOrder
import TinyFramework.Events.HitTest
import TinyFramework.Events.Selection
import TinyFramework.Events.StaleReferences
import TinyFramework.Events.ScriptListeners
import TinyFramework.Cdp.NetworkPanel
import TinyFramework.Js.ModuleCache
import TinyFramework.Render.ClipStack
import TinyFramework.Js.WebGlRestore
import TinyFramework.Js.TimersRun
import TinyFramework.Js.UrlAgreement
import TinyFramework.Js.CommonJsRun
import TinyFramework.Render.GlyphCache
import TinyFramework.Cdp.RequestRead
import TinyFramework.Cdp.Frames
import TinyFramework.Net.CookieReads
import TinyFramework.Net.CookieJar
import TinyFramework.Net.HttpCacheRun
import TinyFramework.Net.Revalidate
import TinyFramework.Net.WsPump
import TinyFramework.Net.HpackBuffers
import TinyFramework.Net.HpackInt
import TinyFramework.Net.KeepAlive
import TinyFramework.Net.Hsts
import TinyFramework.Net.CspPolicy
import TinyFramework.Net.HttpPooled
import TinyFramework.Net.DechunkBuffer
import TinyFramework.App.LogRing
import TinyFramework.App.EventLoop
import TinyFramework.App.AnimationFrames
import TinyFramework.App.WorkerPool
import TinyFramework.App.MutationObservers
import TinyFramework.Ipc.InvokeRun
import TinyFramework.Render.Png
import TinyFramework.Css.VarResolve
import TinyFramework.Render.PngDecode
import TinyFramework.Canvas.PixelImages
import TinyFramework.Css.CalcCursor
import TinyFramework.Css.Nth
import TinyFramework.Html5.TokenizerTurns
import TinyFramework.Js.TextCodec
import TinyFramework.Css.AtRules
import TinyFramework.Js.TextContent
import TinyFramework.Css.QuerySelector
import TinyFramework.Render.SvgPath
import TinyFramework.Render.SvgUse
import TinyFramework.Layout.Grid
import TinyFramework.Layout.FlexRow
import TinyFramework.Layout.FlexWrap
import TinyFramework.Layout.BlockFlow
import TinyFramework.Css.BoxShorthand
import TinyFramework.Js.PathRelative

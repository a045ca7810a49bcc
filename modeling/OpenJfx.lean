import OpenJfx.Binding.ContentBinding
import OpenJfx.Event.EventDispatchChainImpl
import OpenJfx.Binding.NotificationSnapshot
import OpenJfx.Collections.ObservableMapWrapper
import OpenJfx.Collections.FilteredListRun
import OpenJfx.Event.EventDispatchTreeTraversal
import OpenJfx.Css.BitSetRun
import OpenJfx.Css.SelectorMatching
import OpenJfx.Concurrent.TaskUpdates
import OpenJfx.Css.RuleOwnership
import OpenJfx.Prism.RectanglePacker
import OpenJfx.Control.TextInputUndo
import OpenJfx.Iio.PngIdatStream
import OpenJfx.Iio.PngLoadOverflow
import OpenJfx.Iio.LzwDecoderSpec
import OpenJfx.Fxml.ExpressionFailure
import OpenJfx.Fxml.KeyPathToString
import OpenJfx.Network.CookieOrigin
import OpenJfx.Media.HlsPlaylist
import OpenJfx.Monocle.LinuxInputDevice
import OpenJfx.Animation.FiniteClipEnvelope
import OpenJfx.Control.SelectedCellsMap
import OpenJfx.Input.KeyCombinationRoundTrip
import OpenJfx.Monocle.TouchInput
import OpenJfx.Prism.BaseResourcePoolRun
import OpenJfx.Geom.DirtyRegionRun
import OpenJfx.Control.SelectionFollowsItems
import OpenJfx.Collections.SortedListPermutation
import OpenJfx.Collections.SortedListRun
import OpenJfx.Scene.TabOrder
import OpenJfx.Monocle.NestedEventLoopsRun
import OpenJfx.Glass.InvokeLaterDispatcher
import OpenJfx.Binding.BidirectionalBindingRun
import OpenJfx.Concurrent.ScheduledServiceRun
import OpenJfx.Collections.VetoableListDecorator
import OpenJfx.Collections.FXCollections
import OpenJfx.Collections.SortHelperRange
import OpenJfx.Css.Match
import OpenJfx.Collections.ElementObserverRun
import OpenJfx.Collections.ObservableIntegerArrayRun
import OpenJfx.Event.CompositeEventDispatch
import OpenJfx.Iio.PngHeader
import OpenJfx.Iio.PngUnfilter
import OpenJfx.Iio.RoughScaler
import OpenJfx.Css.SelectorText
import OpenJfx.Css.StyleClassSet
import OpenJfx.Iio.BmpRleOrientation
import OpenJfx.Network.CookieStorePurge
import OpenJfx.Network.PublicSuffixes
import OpenJfx.Iio.BmpChunking
import OpenJfx.Iio.GifSafety
import OpenJfx.Control.SpinnerValueFactory
import OpenJfx.Control.TreeUtilForeign
import OpenJfx.Control.SelectedIndicesCache
import OpenJfx.Control.ListViewFocusModel
import OpenJfx.Prism.ResourcePoolCleanup
import OpenJfx.Control.TreeItemLinks
import OpenJfx.Animation.TimelineClipCore

import HostBindings.Text

/-!
Object types of the browser, exported by the host crate `web_sys`.
-/

namespace HostBindings.Catalog

/-- Names that `web_sys` exports, with initials A to B. -/
def browserTypesAB : List String :=
  ["AbortController", "AbortSignal", "AddEventListenerOptions", "AesCbcParams", "AesCtrParams",
   "AesDerivedKeyParams", "AesGcmParams", "AesKeyAlgorithm", "AesKeyGenParams", "Algorithm",
   "AllowedBluetoothDevice", "AllowedUsbDevice", "AnalyserNode", "AnalyserOptions",
   "AngleInstancedArrays", "Animation", "AnimationEffect", "AnimationEvent", "AnimationEventInit",
   "AnimationPlaybackEvent", "AnimationPlaybackEventInit", "AnimationPropertyDetails",
   "AnimationPropertyValueDetails", "AnimationTimeline", "AssignedNodesOptions", "Attr",
   "AttributeNameValue", "AudioBuffer", "AudioBufferOptions", "AudioBufferSourceNode",
   "AudioBufferSourceOptions", "AudioConfiguration", "AudioContext", "AudioContextOptions",
   "AudioData", "AudioDataCopyToOptions", "AudioDataInit", "AudioDecoder", "AudioDecoderConfig",
   "AudioDecoderInit", "AudioDecoderSupport", "AudioDestinationNode", "AudioEncoder",
   "AudioEncoderConfig", "AudioEncoderInit", "AudioEncoderSupport", "AudioListener", "AudioNode",
   "AudioNodeOptions", "AudioParam", "AudioParamMap", "AudioProcessingEvent",
   "AudioScheduledSourceNode", "AudioStreamTrack", "AudioTrack", "AudioTrackList", "AudioWorklet",
   "AudioWorkletGlobalScope", "AudioWorkletNode", "AudioWorkletNodeOptions",
   "AudioWorkletProcessor", "AuthenticationExtensionsClientInputs",
   "AuthenticationExtensionsClientOutputs", "AuthenticatorAssertionResponse",
   "AuthenticatorAttestationResponse", "AuthenticatorResponse", "AuthenticatorSelectionCriteria",
   "AutocompleteInfo", "BarProp", "BaseAudioContext", "BaseComputedKeyframe", "BaseKeyframe",
   "BasePropertyIndexedKeyframe", "BasicCardRequest", "BasicCardResponse", "BatteryManager",
   "BeforeUnloadEvent", "BiquadFilterNode", "BiquadFilterOptions", "Blob", "BlobEvent",
   "BlobEventInit", "BlobPropertyBag", "BlockParsingOptions", "Bluetooth",
   "BluetoothAdvertisingEvent", "BluetoothAdvertisingEventInit",
   "BluetoothCharacteristicProperties", "BluetoothDataFilterInit", "BluetoothDevice",
   "BluetoothLeScanFilterInit", "BluetoothManufacturerDataMap", "BluetoothPermissionDescriptor",
   "BluetoothPermissionResult", "BluetoothPermissionStorage", "BluetoothRemoteGattCharacteristic",
   "BluetoothRemoteGattDescriptor", "BluetoothRemoteGattServer", "BluetoothRemoteGattService",
   "BluetoothServiceDataMap", "BluetoothUuid", "BoxQuadOptions", "BroadcastChannel",
   "BrowserElementDownloadOptions", "BrowserElementExecuteScriptOptions", "BrowserFeedWriter",
   "ByteLengthQueuingStrategy"]

/-- Names that `web_sys` exports, with initial C. -/
def browserTypesC : List String :=
  ["Cache", "CacheBatchOperation", "CacheQueryOptions", "CacheStorage", "CanvasCaptureMediaStream",
   "CanvasGradient", "CanvasPattern", "CanvasRenderingContext2d", "CaretPosition",
   "CaretStateChangedEventInit", "CdataSection", "ChannelMergerNode", "ChannelMergerOptions",
   "ChannelPixelLayout", "ChannelSplitterNode", "ChannelSplitterOptions", "CharacterData",
   "CheckerboardReport", "CheckerboardReportService", "ChromeFilePropertyBag", "ChromeWorker",
   "Client", "ClientQueryOptions", "ClientRectsAndTexts", "Clients", "Clipboard", "ClipboardEvent",
   "ClipboardEventInit", "ClipboardItem", "ClipboardItemOptions", "ClipboardPermissionDescriptor",
   "CloseEvent", "CloseEventInit", "CollectedClientData", "Comment", "CompositionEvent",
   "CompositionEventInit", "ComputedEffectTiming", "ConnStatusDict", "ConsoleCounter",
   "ConsoleCounterError", "ConsoleEvent", "ConsoleInstance", "ConsoleInstanceOptions",
   "ConsoleProfileEvent", "ConsoleStackEntry", "ConsoleTimerError", "ConsoleTimerLogOrEnd",
   "ConsoleTimerStart", "ConstantSourceNode", "ConstantSourceOptions",
   "ConstrainBooleanParameters", "ConstrainDomStringParameters", "ConstrainDoubleRange",
   "ConstrainLongRange", "ContextAttributes2d", "ConvertCoordinateOptions", "ConvolverNode",
   "ConvolverOptions", "Coordinates", "CountQueuingStrategy", "Credential",
   "CredentialCreationOptions", "CredentialRequestOptions", "CredentialsContainer", "Crypto",
   "CryptoKey", "CryptoKeyPair", "Csp", "CspPolicies", "CspReport", "CspReportProperties",
   "CssAnimation", "CssConditionRule", "CssCounterStyleRule", "CssFontFaceRule",
   "CssFontFeatureValuesRule", "CssGroupingRule", "CssImportRule", "CssKeyframeRule",
   "CssKeyframesRule", "CssMediaRule", "CssNamespaceRule", "CssPageRule", "CssPseudoElement",
   "CssRule", "CssRuleList", "CssStyleDeclaration", "CssStyleRule", "CssStyleSheet",
   "CssSupportsRule", "CssTransition", "CustomElementRegistry", "CustomEvent", "CustomEventInit"]

/-- Names that `web_sys` exports, with initials D to F. -/
def browserTypesDF : List String :=
  ["DataTransfer", "DataTransferItem", "DataTransferItemList", "DateTimeValue",
   "DecoderDoctorNotification", "DedicatedWorkerGlobalScope", "DelayNode", "DelayOptions",
   "DeviceAcceleration", "DeviceAccelerationInit", "DeviceLightEvent", "DeviceLightEventInit",
   "DeviceMotionEvent", "DeviceMotionEventInit", "DeviceOrientationEvent",
   "DeviceOrientationEventInit", "DeviceProximityEvent", "DeviceProximityEventInit",
   "DeviceRotationRate", "DeviceRotationRateInit", "DhKeyDeriveParams", "Directory",
   "DisplayMediaStreamConstraints", "DisplayNameOptions", "DisplayNameResult", "DnsCacheDict",
   "DnsCacheEntry", "DnsLookupDict", "Document", "DocumentFragment", "DocumentTimeline",
   "DocumentTimelineOptions", "DocumentType", "DomError", "DomException", "DomImplementation",
   "DomMatrix", "DomMatrixReadOnly", "DomParser", "DomPoint", "DomPointInit", "DomPointReadOnly",
   "DomQuad", "DomQuadInit", "DomQuadJson", "DomRect", "DomRectInit", "DomRectList",
   "DomRectReadOnly", "DomRequest", "DomStringList", "DomStringMap", "DomTokenList",
   "DomWindowResizeEventDetail", "DragEvent", "DragEventInit", "DynamicsCompressorNode",
   "DynamicsCompressorOptions", "EcKeyAlgorithm", "EcKeyGenParams", "EcKeyImportParams",
   "EcdhKeyDeriveParams", "EcdsaParams", "EffectTiming", "Element", "ElementCreationOptions",
   "ElementDefinitionOptions", "EncodedAudioChunk", "EncodedAudioChunkInit",
   "EncodedAudioChunkMetadata", "EncodedVideoChunk", "EncodedVideoChunkInit",
   "EncodedVideoChunkMetadata", "ErrorCallback", "ErrorEvent", "ErrorEventInit", "Event",
   "EventInit", "EventListener", "EventListenerOptions", "EventModifierInit", "EventSource",
   "EventSourceInit", "EventTarget", "Exception", "ExtBlendMinmax", "ExtColorBufferFloat",
   "ExtColorBufferHalfFloat", "ExtDisjointTimerQuery", "ExtFragDepth", "ExtSRgb",
   "ExtShaderTextureLod", "ExtTextureFilterAnisotropic", "ExtendableEvent", "ExtendableEventInit",
   "ExtendableMessageEvent", "ExtendableMessageEventInit", "External", "FakePluginMimeEntry",
   "FakePluginTagInit", "FetchEvent", "FetchEventInit", "FetchObserver",
   "FetchReadableStreamReadDataArray", "FetchReadableStreamReadDataDone", "File", "FileCallback",
   "FileList", "FilePropertyBag", "FileReader", "FileReaderSync", "FileSystem",
   "FileSystemDirectoryEntry", "FileSystemDirectoryReader", "FileSystemEntriesCallback",
   "FileSystemEntry", "FileSystemEntryCallback", "FileSystemFileEntry", "FileSystemFlags",
   "FocusEvent", "FocusEventInit", "FontFace", "FontFaceDescriptors", "FontFaceSet",
   "FontFaceSetIterator", "FontFaceSetIteratorResult", "FontFaceSetLoadEvent",
   "FontFaceSetLoadEventInit", "FormData", "FuzzingFunctions"]

/-- Names that `web_sys` exports, with initials G to H. -/
def browserTypesGH : List String :=
  ["GainNode", "GainOptions", "Gamepad", "GamepadAxisMoveEvent", "GamepadAxisMoveEventInit",
   "GamepadButton", "GamepadButtonEvent", "GamepadButtonEventInit", "GamepadEvent",
   "GamepadEventInit", "GamepadHapticActuator", "GamepadPose", "GamepadServiceTest", "Geolocation",
   "GetNotificationOptions", "GetRootNodeOptions", "GetUserMediaRequest", "Gpu", "GpuAdapter",
   "GpuAdapterInfo", "GpuBindGroup", "GpuBindGroupDescriptor", "GpuBindGroupEntry",
   "GpuBindGroupLayout", "GpuBindGroupLayoutDescriptor", "GpuBindGroupLayoutEntry",
   "GpuBlendComponent", "GpuBlendState", "GpuBuffer", "GpuBufferBinding", "GpuBufferBindingLayout",
   "GpuBufferDescriptor", "GpuCanvasConfiguration", "GpuCanvasContext", "GpuColorDict",
   "GpuColorTargetState", "GpuCommandBuffer", "GpuCommandBufferDescriptor", "GpuCommandEncoder",
   "GpuCommandEncoderDescriptor", "GpuCompilationInfo", "GpuCompilationMessage",
   "GpuComputePassDescriptor", "GpuComputePassEncoder", "GpuComputePassTimestampWrite",
   "GpuComputePipeline", "GpuComputePipelineDescriptor", "GpuDepthStencilState", "GpuDevice",
   "GpuDeviceDescriptor", "GpuDeviceLostInfo", "GpuError", "GpuExtent3dDict", "GpuExternalTexture",
   "GpuExternalTextureBindingLayout", "GpuExternalTextureDescriptor", "GpuFragmentState",
   "GpuImageCopyBuffer", "GpuImageCopyExternalImage", "GpuImageCopyTexture",
   "GpuImageCopyTextureTagged", "GpuImageDataLayout", "GpuMultisampleState",
   "GpuObjectDescriptorBase", "GpuOrigin2dDict", "GpuOrigin3dDict", "GpuOutOfMemoryError",
   "GpuPipelineDescriptorBase", "GpuPipelineLayout", "GpuPipelineLayoutDescriptor",
   "GpuPrimitiveState", "GpuProgrammableStage", "GpuQuerySet", "GpuQuerySetDescriptor", "GpuQueue",
   "GpuQueueDescriptor", "GpuRenderBundle", "GpuRenderBundleDescriptor", "GpuRenderBundleEncoder",
   "GpuRenderBundleEncoderDescriptor", "GpuRenderPassColorAttachment",
   "GpuRenderPassDepthStencilAttachment", "GpuRenderPassDescriptor", "GpuRenderPassEncoder",
   "GpuRenderPassLayout", "GpuRenderPassTimestampWrite", "GpuRenderPipeline",
   "GpuRenderPipelineDescriptor", "GpuRequestAdapterOptions", "GpuSampler",
   "GpuSamplerBindingLayout", "GpuSamplerDescriptor", "GpuShaderModule",
   "GpuShaderModuleCompilationHint", "GpuShaderModuleDescriptor", "GpuStencilFaceState",
   "GpuStorageTextureBindingLayout", "GpuSupportedFeatures", "GpuSupportedLimits", "GpuTexture",
   "GpuTextureBindingLayout", "GpuTextureDescriptor", "GpuTextureView", "GpuTextureViewDescriptor",
   "GpuUncapturedErrorEvent", "GpuUncapturedErrorEventInit", "GpuValidationError",
   "GpuVertexAttribute", "GpuVertexBufferLayout", "GpuVertexState", "GroupedHistoryEventInit",
   "HalfOpenInfoDict", "HashChangeEvent", "HashChangeEventInit", "Headers", "Hid",
   "HidCollectionInfo", "HidConnectionEvent", "HidConnectionEventInit", "HidDevice",
   "HidDeviceFilter", "HidDeviceRequestOptions", "HidInputReportEvent", "HidInputReportEventInit",
   "HidReportInfo", "HidReportItem", "HiddenPluginEventInit", "History", "HitRegionOptions",
   "HkdfParams", "HmacDerivedKeyParams", "HmacImportParams", "HmacKeyAlgorithm",
   "HmacKeyGenParams", "HtmlAllCollection", "HtmlAnchorElement", "HtmlAreaElement",
   "HtmlAudioElement", "HtmlBaseElement", "HtmlBodyElement", "HtmlBrElement", "HtmlButtonElement",
   "HtmlCanvasElement", "HtmlCollection", "HtmlDListElement", "HtmlDataElement",
   "HtmlDataListElement", "HtmlDetailsElement", "HtmlDialogElement", "HtmlDirectoryElement",
   "HtmlDivElement", "HtmlDocument", "HtmlElement", "HtmlEmbedElement", "HtmlFieldSetElement",
   "HtmlFontElement", "HtmlFormControlsCollection", "HtmlFormElement", "HtmlFrameElement",
   "HtmlFrameSetElement", "HtmlHeadElement", "HtmlHeadingElement", "HtmlHrElement",
   "HtmlHtmlElement", "HtmlIFrameElement", "HtmlImageElement", "HtmlInputElement",
   "HtmlLabelElement", "HtmlLegendElement", "HtmlLiElement", "HtmlLinkElement", "HtmlMapElement",
   "HtmlMediaElement", "HtmlMenuElement", "HtmlMenuItemElement", "HtmlMetaElement",
   "HtmlMeterElement", "HtmlModElement", "HtmlOListElement", "HtmlObjectElement",
   "HtmlOptGroupElement", "HtmlOptionElement", "HtmlOptionsCollection", "HtmlOutputElement",
   "HtmlParagraphElement", "HtmlParamElement", "HtmlPictureElement", "HtmlPreElement",
   "HtmlProgressElement", "HtmlQuoteElement", "HtmlScriptElement", "HtmlSelectElement",
   "HtmlSlotElement", "HtmlSourceElement", "HtmlSpanElement", "HtmlStyleElement",
   "HtmlTableCaptionElement", "HtmlTableCellElement", "HtmlTableColElement", "HtmlTableElement",
   "HtmlTableRowElement", "HtmlTableSectionElement", "HtmlTemplateElement", "HtmlTextAreaElement",
   "HtmlTimeElement", "HtmlTitleElement", "HtmlTrackElement", "HtmlUListElement",
   "HtmlUnknownElement", "HtmlVideoElement", "HttpConnDict", "HttpConnInfo",
   "HttpConnectionElement"]

/-- Names that `web_sys` exports, with initials I to L. -/
def browserTypesIL : List String :=
  ["IdbCursor", "IdbCursorWithValue", "IdbDatabase", "IdbFactory", "IdbFileHandle",
   "IdbFileMetadataParameters", "IdbFileRequest", "IdbIndex", "IdbIndexParameters", "IdbKeyRange",
   "IdbLocaleAwareKeyRange", "IdbMutableFile", "IdbObjectStore", "IdbObjectStoreParameters",
   "IdbOpenDbOptions", "IdbOpenDbRequest", "IdbRequest", "IdbTransaction", "IdbVersionChangeEvent",
   "IdbVersionChangeEventInit", "IdleDeadline", "IdleRequestOptions", "IirFilterNode",
   "IirFilterOptions", "ImageBitmap", "ImageBitmapRenderingContext", "ImageCapture",
   "ImageCaptureError", "ImageCaptureErrorEvent", "ImageCaptureErrorEventInit", "ImageData",
   "ImageDecodeOptions", "ImageDecodeResult", "ImageDecoder", "ImageDecoderInit", "ImageTrack",
   "ImageTrackList", "InputEvent", "InputEventInit", "InstallTriggerData", "IntersectionObserver",
   "IntersectionObserverEntry", "IntersectionObserverEntryInit", "IntersectionObserverInit",
   "IntlUtils", "IterableKeyAndValueResult", "IterableKeyOrValueResult", "JsonWebKey",
   "KeyAlgorithm", "KeyEvent", "KeyIdsInitData", "KeyboardEvent", "KeyboardEventInit",
   "KeyframeEffect", "KeyframeEffectOptions", "L10nElement", "L10nValue", "LifecycleCallbacks",
   "ListBoxObject", "LocalMediaStream", "LocaleInfo", "Location"]

/-- Names that `web_sys` exports, with initials M to O. -/
def browserTypesMO : List String :=
  ["MediaCapabilities", "MediaCapabilitiesInfo", "MediaConfiguration",
   "MediaDecodingConfiguration", "MediaDeviceInfo", "MediaDevices", "MediaElementAudioSourceNode",
   "MediaElementAudioSourceOptions", "MediaEncodingConfiguration", "MediaEncryptedEvent",
   "MediaError", "MediaImage", "MediaKeyError", "MediaKeyMessageEvent", "MediaKeyMessageEventInit",
   "MediaKeyNeededEventInit", "MediaKeySession", "MediaKeyStatusMap", "MediaKeySystemAccess",
   "MediaKeySystemConfiguration", "MediaKeySystemMediaCapability", "MediaKeys", "MediaKeysPolicy",
   "MediaList", "MediaMetadata", "MediaMetadataInit", "MediaPositionState", "MediaQueryList",
   "MediaQueryListEvent", "MediaQueryListEventInit", "MediaRecorder", "MediaRecorderErrorEvent",
   "MediaRecorderErrorEventInit", "MediaRecorderOptions", "MediaSession",
   "MediaSessionActionDetails", "MediaSource", "MediaStream", "MediaStreamAudioDestinationNode",
   "MediaStreamAudioSourceNode", "MediaStreamAudioSourceOptions", "MediaStreamConstraints",
   "MediaStreamError", "MediaStreamEvent", "MediaStreamEventInit", "MediaStreamTrack",
   "MediaStreamTrackEvent", "MediaStreamTrackEventInit", "MediaStreamTrackGenerator",
   "MediaStreamTrackGeneratorInit", "MediaStreamTrackProcessor", "MediaStreamTrackProcessorInit",
   "MediaTrackConstraintSet", "MediaTrackConstraints", "MediaTrackSettings",
   "MediaTrackSupportedConstraints", "MessageChannel", "MessageEvent", "MessageEventInit",
   "MessagePort", "MidiAccess", "MidiConnectionEvent", "MidiConnectionEventInit", "MidiInput",
   "MidiInputMap", "MidiMessageEvent", "MidiMessageEventInit", "MidiOptions", "MidiOutput",
   "MidiOutputMap", "MidiPort", "MimeType", "MimeTypeArray", "MouseEvent", "MouseEventInit",
   "MouseScrollEvent", "MozDebug", "MutationEvent", "MutationObserver", "MutationObserverInit",
   "MutationObservingInfo", "MutationRecord", "NamedNodeMap", "NativeOsFileReadOptions",
   "NativeOsFileWriteAtomicOptions", "Navigator", "NavigatorAutomationInformation",
   "NetworkCommandOptions", "NetworkInformation", "NetworkResultOptions", "Node", "NodeFilter",
   "NodeIterator", "NodeList", "Notification", "NotificationBehavior", "NotificationEvent",
   "NotificationEventInit", "NotificationOptions", "ObserverCallback", "OesElementIndexUint",
   "OesStandardDerivatives", "OesTextureFloat", "OesTextureFloatLinear", "OesTextureHalfFloat",
   "OesTextureHalfFloatLinear", "OesVertexArrayObject", "OfflineAudioCompletionEvent",
   "OfflineAudioCompletionEventInit", "OfflineAudioContext", "OfflineAudioContextOptions",
   "OfflineResourceList", "OffscreenCanvas", "OpenWindowEventDetail", "OptionalEffectTiming",
   "OscillatorNode", "OscillatorOptions", "OvrMultiview2"]

/-- Names that `web_sys` exports, with initials P to Q. -/
def browserTypesPQ : List String :=
  ["PageTransitionEvent", "PageTransitionEventInit", "PaintRequest", "PaintRequestList",
   "PaintWorkletGlobalScope", "PannerNode", "PannerOptions", "Path2d", "PaymentAddress",
   "PaymentMethodChangeEvent", "PaymentMethodChangeEventInit", "PaymentRequestUpdateEvent",
   "PaymentRequestUpdateEventInit", "PaymentResponse", "Pbkdf2Params", "Performance",
   "PerformanceEntry", "PerformanceEntryEventInit", "PerformanceEntryFilterOptions",
   "PerformanceMark", "PerformanceMeasure", "PerformanceNavigation", "PerformanceNavigationTiming",
   "PerformanceObserver", "PerformanceObserverEntryList", "PerformanceObserverInit",
   "PerformanceResourceTiming", "PerformanceServerTiming", "PerformanceTiming", "PeriodicWave",
   "PeriodicWaveConstraints", "PeriodicWaveOptions", "PermissionDescriptor", "PermissionStatus",
   "Permissions", "PlaneLayout", "Plugin", "PluginArray", "PluginCrashedEventInit", "PointerEvent",
   "PointerEventInit", "PopStateEvent", "PopStateEventInit", "PopupBlockedEvent",
   "PopupBlockedEventInit", "Position", "PositionError", "PositionOptions", "Presentation",
   "PresentationAvailability", "PresentationConnection", "PresentationConnectionAvailableEvent",
   "PresentationConnectionAvailableEventInit", "PresentationConnectionCloseEvent",
   "PresentationConnectionCloseEventInit", "PresentationConnectionList", "PresentationReceiver",
   "PresentationRequest", "ProcessingInstruction", "ProfileTimelineLayerRect",
   "ProfileTimelineMarker", "ProfileTimelineStackFrame", "ProgressEvent", "ProgressEventInit",
   "PromiseNativeHandler", "PromiseRejectionEvent", "PromiseRejectionEventInit",
   "PublicKeyCredential", "PublicKeyCredentialCreationOptions", "PublicKeyCredentialDescriptor",
   "PublicKeyCredentialEntity", "PublicKeyCredentialParameters",
   "PublicKeyCredentialRequestOptions", "PublicKeyCredentialRpEntity",
   "PublicKeyCredentialUserEntity", "PushEvent", "PushEventInit", "PushManager", "PushMessageData",
   "PushSubscription", "PushSubscriptionInit", "PushSubscriptionJson", "PushSubscriptionKeys",
   "PushSubscriptionOptions", "PushSubscriptionOptionsInit", "QueuingStrategy",
   "QueuingStrategyInit"]

/-- Names that `web_sys` exports, with initial R. -/
def browserTypesR : List String :=
  ["RadioNodeList", "Range", "RcwnPerfStats", "RcwnStatus", "ReadableByteStreamController",
   "ReadableStream", "ReadableStreamByobReader", "ReadableStreamByobRequest",
   "ReadableStreamDefaultController", "ReadableStreamDefaultReader",
   "ReadableStreamGetReaderOptions", "ReadableStreamIteratorOptions", "ReadableStreamReadResult",
   "ReadableWritablePair", "RegisterRequest", "RegisterResponse", "RegisteredKey",
   "RegistrationOptions", "Request", "RequestDeviceOptions", "RequestInit",
   "RequestMediaKeySystemAccessNotification", "ResizeObserver", "ResizeObserverEntry",
   "ResizeObserverOptions", "ResizeObserverSize", "Response", "ResponseInit",
   "RsaHashedImportParams", "RsaOaepParams", "RsaOtherPrimesInfo", "RsaPssParams",
   "RtcAnswerOptions", "RtcCertificate", "RtcCertificateExpiration", "RtcCodecStats",
   "RtcConfiguration", "RtcDataChannel", "RtcDataChannelEvent", "RtcDataChannelEventInit",
   "RtcDataChannelInit", "RtcFecParameters", "RtcIceCandidate", "RtcIceCandidateInit",
   "RtcIceCandidatePairStats", "RtcIceCandidateStats", "RtcIceComponentStats", "RtcIceServer",
   "RtcIdentityAssertion", "RtcIdentityAssertionResult", "RtcIdentityProvider",
   "RtcIdentityProviderDetails", "RtcIdentityProviderOptions", "RtcIdentityProviderRegistrar",
   "RtcIdentityValidationResult", "RtcInboundRtpStreamStats", "RtcMediaStreamStats",
   "RtcMediaStreamTrackStats", "RtcOfferAnswerOptions", "RtcOfferOptions",
   "RtcOutboundRtpStreamStats", "RtcPeerConnection", "RtcPeerConnectionIceEvent",
   "RtcPeerConnectionIceEventInit", "RtcRtcpParameters", "RtcRtpCodecParameters",
   "RtcRtpContributingSource", "RtcRtpEncodingParameters", "RtcRtpHeaderExtensionParameters",
   "RtcRtpParameters", "RtcRtpReceiver", "RtcRtpSender", "RtcRtpSourceEntry",
   "RtcRtpSynchronizationSource", "RtcRtpTransceiver", "RtcRtpTransceiverInit", "RtcRtxParameters",
   "RtcSessionDescription", "RtcSessionDescriptionInit", "RtcStats", "RtcStatsReport",
   "RtcStatsReportInternal", "RtcTrackEvent", "RtcTrackEventInit", "RtcTransportStats",
   "RtcdtmfSender", "RtcdtmfToneChangeEvent", "RtcdtmfToneChangeEventInit",
   "RtcrtpContributingSourceStats", "RtcrtpStreamStats"]

/-- Names that `web_sys` exports, with initial S. -/
def browserTypesS : List String :=
  ["Screen", "ScreenLuminance", "ScreenOrientation", "ScriptProcessorNode", "ScrollAreaEvent",
   "ScrollBoxObject", "ScrollIntoViewOptions", "ScrollOptions", "ScrollToOptions",
   "ScrollViewChangeEventInit", "SecurityPolicyViolationEvent", "SecurityPolicyViolationEventInit",
   "Selection", "ServerSocketOptions", "ServiceWorker", "ServiceWorkerContainer",
   "ServiceWorkerGlobalScope", "ServiceWorkerRegistration", "ShadowRoot", "ShadowRootInit",
   "ShareData", "SharedWorker", "SharedWorkerGlobalScope", "SignResponse", "SocketElement",
   "SocketOptions", "SocketsDict", "SourceBuffer", "SourceBufferList", "SpeechGrammar",
   "SpeechGrammarList", "SpeechRecognition", "SpeechRecognitionAlternative",
   "SpeechRecognitionError", "SpeechRecognitionErrorInit", "SpeechRecognitionEvent",
   "SpeechRecognitionEventInit", "SpeechRecognitionResult", "SpeechRecognitionResultList",
   "SpeechSynthesis", "SpeechSynthesisErrorEvent", "SpeechSynthesisErrorEventInit",
   "SpeechSynthesisEvent", "SpeechSynthesisEventInit", "SpeechSynthesisUtterance",
   "SpeechSynthesisVoice", "StereoPannerNode", "StereoPannerOptions", "Storage", "StorageEstimate",
   "StorageEvent", "StorageEventInit", "StorageManager", "StreamPipeOptions",
   "StyleRuleChangeEventInit", "StyleSheet", "StyleSheetApplicableStateChangeEventInit",
   "StyleSheetChangeEventInit", "StyleSheetList", "SubmitEvent", "SubmitEventInit", "SubtleCrypto",
   "SvcOutputMetadata", "SvgAngle", "SvgAnimateElement", "SvgAnimateMotionElement",
   "SvgAnimateTransformElement", "SvgAnimatedAngle", "SvgAnimatedBoolean",
   "SvgAnimatedEnumeration", "SvgAnimatedInteger", "SvgAnimatedLength", "SvgAnimatedLengthList",
   "SvgAnimatedNumber", "SvgAnimatedNumberList", "SvgAnimatedPreserveAspectRatio",
   "SvgAnimatedRect", "SvgAnimatedString", "SvgAnimatedTransformList", "SvgAnimationElement",
   "SvgBoundingBoxOptions", "SvgCircleElement", "SvgClipPathElement",
   "SvgComponentTransferFunctionElement", "SvgDefsElement", "SvgDescElement", "SvgElement",
   "SvgEllipseElement", "SvgFilterElement", "SvgForeignObjectElement", "SvgGeometryElement",
   "SvgGradientElement", "SvgGraphicsElement", "SvgImageElement", "SvgLength", "SvgLengthList",
   "SvgLineElement", "SvgLinearGradientElement", "SvgMarkerElement", "SvgMaskElement", "SvgMatrix",
   "SvgMetadataElement", "SvgNumber", "SvgNumberList", "SvgPathElement", "SvgPathSeg",
   "SvgPathSegArcAbs", "SvgPathSegArcRel", "SvgPathSegClosePath", "SvgPathSegCurvetoCubicAbs",
   "SvgPathSegCurvetoCubicRel", "SvgPathSegCurvetoCubicSmoothAbs",
   "SvgPathSegCurvetoCubicSmoothRel", "SvgPathSegCurvetoQuadraticAbs",
   "SvgPathSegCurvetoQuadraticRel", "SvgPathSegCurvetoQuadraticSmoothAbs",
   "SvgPathSegCurvetoQuadraticSmoothRel", "SvgPathSegLinetoAbs", "SvgPathSegLinetoHorizontalAbs",
   "SvgPathSegLinetoHorizontalRel", "SvgPathSegLinetoRel", "SvgPathSegLinetoVerticalAbs",
   "SvgPathSegLinetoVerticalRel", "SvgPathSegList", "SvgPathSegMovetoAbs", "SvgPathSegMovetoRel",
   "SvgPatternElement", "SvgPoint", "SvgPointList", "SvgPolygonElement", "SvgPolylineElement",
   "SvgPreserveAspectRatio", "SvgRadialGradientElement", "SvgRect", "SvgRectElement",
   "SvgScriptElement", "SvgSetElement", "SvgStopElement", "SvgStringList", "SvgStyleElement",
   "SvgSwitchElement", "SvgSymbolElement", "SvgTextContentElement", "SvgTextElement",
   "SvgTextPathElement", "SvgTextPositioningElement", "SvgTitleElement", "SvgTransform",
   "SvgTransformList", "SvgUnitTypes", "SvgUseElement", "SvgViewElement", "SvgZoomAndPan",
   "SvgaElement", "SvgfeBlendElement", "SvgfeColorMatrixElement", "SvgfeComponentTransferElement",
   "SvgfeCompositeElement", "SvgfeConvolveMatrixElement", "SvgfeDiffuseLightingElement",
   "SvgfeDisplacementMapElement", "SvgfeDistantLightElement", "SvgfeDropShadowElement",
   "SvgfeFloodElement", "SvgfeFuncAElement", "SvgfeFuncBElement", "SvgfeFuncGElement",
   "SvgfeFuncRElement", "SvgfeGaussianBlurElement", "SvgfeImageElement", "SvgfeMergeElement",
   "SvgfeMergeNodeElement", "SvgfeMorphologyElement", "SvgfeOffsetElement",
   "SvgfePointLightElement", "SvgfeSpecularLightingElement", "SvgfeSpotLightElement",
   "SvgfeTileElement", "SvgfeTurbulenceElement", "SvggElement", "SvgmPathElement", "SvgsvgElement",
   "SvgtSpanElement"]

/-- Names that `web_sys` exports, with initials T to V. -/
def browserTypesTV : List String :=
  ["TcpServerSocket", "TcpServerSocketEvent", "TcpServerSocketEventInit", "TcpSocket",
   "TcpSocketErrorEvent", "TcpSocketErrorEventInit", "TcpSocketEvent", "TcpSocketEventInit",
   "Text", "TextDecodeOptions", "TextDecoder", "TextDecoderOptions", "TextEncoder", "TextMetrics",
   "TextTrack", "TextTrackCue", "TextTrackCueList", "TextTrackList", "TimeEvent", "TimeRanges",
   "Touch", "TouchEvent", "TouchEventInit", "TouchInit", "TouchList", "TrackEvent",
   "TrackEventInit", "TransformStream", "TransformStreamDefaultController", "Transformer",
   "TransitionEvent", "TransitionEventInit", "TreeBoxObject", "TreeCellInfo", "TreeView",
   "TreeWalker", "U2f", "U2fClientData", "UdpMessageEventInit", "UdpOptions", "UiEvent",
   "UiEventInit", "UnderlyingSink", "UnderlyingSource", "Url", "UrlSearchParams", "Usb",
   "UsbAlternateInterface", "UsbConfiguration", "UsbConnectionEvent", "UsbConnectionEventInit",
   "UsbControlTransferParameters", "UsbDevice", "UsbDeviceFilter", "UsbDeviceRequestOptions",
   "UsbEndpoint", "UsbInTransferResult", "UsbInterface", "UsbIsochronousInTransferPacket",
   "UsbIsochronousInTransferResult", "UsbIsochronousOutTransferPacket",
   "UsbIsochronousOutTransferResult", "UsbOutTransferResult", "UsbPermissionDescriptor",
   "UsbPermissionResult", "UsbPermissionStorage", "UserProximityEvent", "UserProximityEventInit",
   "ValidityState", "ValueEvent", "ValueEventInit", "VideoColorSpace", "VideoColorSpaceInit",
   "VideoConfiguration", "VideoDecoder", "VideoDecoderConfig", "VideoDecoderInit",
   "VideoDecoderSupport", "VideoEncoder", "VideoEncoderConfig", "VideoEncoderEncodeOptions",
   "VideoEncoderInit", "VideoEncoderSupport", "VideoFrame", "VideoFrameBufferInit",
   "VideoFrameCopyToOptions", "VideoFrameInit", "VideoPlaybackQuality", "VideoStreamTrack",
   "VideoTrack", "VideoTrackList", "VoidCallback", "VrDisplay", "VrDisplayCapabilities",
   "VrEyeParameters", "VrFieldOfView", "VrFrameData", "VrLayer", "VrMockController",
   "VrMockDisplay", "VrPose", "VrServiceTest", "VrStageParameters", "VrSubmitFrameResult",
   "VttCue", "VttRegion"]

/-- Names that `web_sys` exports, with initials W to Z. -/
def browserTypesWZ : List String :=
  ["WakeLock", "WakeLockSentinel", "WatchAdvertisementsOptions", "WaveShaperNode",
   "WaveShaperOptions", "WebGl2RenderingContext", "WebGlActiveInfo", "WebGlBuffer",
   "WebGlContextAttributes", "WebGlContextEvent", "WebGlContextEventInit", "WebGlFramebuffer",
   "WebGlProgram", "WebGlQuery", "WebGlRenderbuffer", "WebGlRenderingContext", "WebGlSampler",
   "WebGlShader", "WebGlShaderPrecisionFormat", "WebGlSync", "WebGlTexture",
   "WebGlTransformFeedback", "WebGlUniformLocation", "WebGlVertexArrayObject", "WebKitCssMatrix",
   "WebSocket", "WebSocketDict", "WebSocketElement", "WebglColorBufferFloat",
   "WebglCompressedTextureAstc", "WebglCompressedTextureAtc", "WebglCompressedTextureEtc",
   "WebglCompressedTextureEtc1", "WebglCompressedTexturePvrtc", "WebglCompressedTextureS3tc",
   "WebglCompressedTextureS3tcSrgb", "WebglDebugRendererInfo", "WebglDebugShaders",
   "WebglDepthTexture", "WebglDrawBuffers", "WebglLoseContext", "WebglMultiDraw",
   "WebrtcGlobalStatisticsReport", "WheelEvent", "WheelEventInit", "WidevineCdmManifest", "Window",
   "WindowClient", "Worker", "WorkerDebuggerGlobalScope", "WorkerGlobalScope", "WorkerLocation",
   "WorkerNavigator", "WorkerOptions", "Worklet", "WorkletGlobalScope", "WorkletOptions",
   "WritableStream", "WritableStreamDefaultController", "WritableStreamDefaultWriter",
   "XPathExpression", "XPathNsResolver", "XPathResult", "XmlDocument", "XmlHttpRequest",
   "XmlHttpRequestEventTarget", "XmlHttpRequestUpload", "XmlSerializer", "XrBoundedReferenceSpace",
   "XrFrame", "XrInputSource", "XrInputSourceArray", "XrInputSourceEvent",
   "XrInputSourceEventInit", "XrInputSourcesChangeEvent", "XrInputSourcesChangeEventInit",
   "XrLayer", "XrPermissionDescriptor", "XrPermissionStatus", "XrPose", "XrReferenceSpace",
   "XrReferenceSpaceEvent", "XrReferenceSpaceEventInit", "XrRenderState", "XrRenderStateInit",
   "XrRigidTransform", "XrSession", "XrSessionEvent", "XrSessionEventInit", "XrSessionInit",
   "XrSessionSupportedPermissionDescriptor", "XrSpace", "XrSystem", "XrView", "XrViewerPose",
   "XrViewport", "XrWebGlLayer", "XrWebGlLayerInit", "XsltProcessor"]

/-- Names that `web_sys` exports. -/
def browserTypes : List Text :=
  List.map Text.ofString
    (browserTypesAB ++ browserTypesC ++ browserTypesDF ++ browserTypesGH ++
      browserTypesIL ++ browserTypesMO ++ browserTypesPQ ++ browserTypesR ++
      browserTypesS ++ browserTypesTV ++ browserTypesWZ)

end HostBindings.Catalog
